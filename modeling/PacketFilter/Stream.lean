/-!
# Streams

Streams of bytes that can fail, and limits on what can be written.
-/

namespace PacketFilter

/-- Why a stream cannot be read or written. -/
inductive StreamError where
  | notFound
  | invalidText
  | other (message : String)
  deriving DecidableEq, Repr

/-- The error in words; what the system reports about a missing file is not part of it. -/
def StreamError.message? : StreamError → Option String
  | notFound => none
  | invalidText => some "stream did not contain valid UTF-8"
  | other message => some message

/-- A stream of bytes, which ends after the last one or fails there. -/
structure ByteStream where
  bytes : List UInt8
  failure? : Option String
  deriving DecidableEq, Repr

/-- The stream of a text. -/
def ByteStream.ofText (text : String) : ByteStream := ⟨text.toUTF8.data.toList, none⟩

/-- A limit on what can be written: after `room` items every further one fails with an error. -/
structure Limit where
  room : Nat
  error : StreamError
  deriving DecidableEq, Repr

end PacketFilter
