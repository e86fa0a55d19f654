import PacketFilter.Stream

/-!
# Lines of a byte stream

A stream is read line by line: a line ends with a line feed, and a carriage return before it does not
count. Reading stops at the first line that is not UTF-8 or that the stream fails to deliver. Main
content: `Lines.ofStream`.
-/

namespace PacketFilter

/-- The lines read from a stream, and the error that ended the reading. -/
structure Lines where
  texts : List String
  error? : Option StreamError
  deriving DecidableEq, Repr

namespace Lines

/-- The text of bytes in UTF-8. -/
def decode? (bytes : List UInt8) : Option String := String.fromUTF8? ⟨bytes.toArray⟩

/-- A line without the carriage return in front of its line feed. -/
def withoutReturn (line : List UInt8) : List UInt8 :=
  if line.getLast? = some 0x0D then line.dropLast else line

/-- Puts a line before others, or stops at it if it is not UTF-8. -/
def cons (line : List UInt8) (others : Lines) : Lines :=
  match decode? line with
  | some text => { others with texts := text :: others.texts }
  | none => ⟨[], some .invalidText⟩

/-- The last piece of a stream, which no line feed ends. -/
def ofTail (failure? : Option String) (tail : List UInt8) : Lines :=
  match failure? with
  | some message => ⟨[], some (.other message)⟩
  | none => if tail.isEmpty then ⟨[], none⟩ else cons tail ⟨[], none⟩

/-- The lines of the pieces between line feeds. -/
def ofPieces (failure? : Option String) : List (List UInt8) → Lines
  | [] => ofTail failure? []
  | [tail] => ofTail failure? tail
  | line :: piece :: pieces => cons (withoutReturn line) (ofPieces failure? (piece :: pieces))

/-- The lines of a stream. -/
def ofStream (stream : ByteStream) : Lines := ofPieces stream.failure? (stream.bytes.splitOn 0x0A)

end Lines

end PacketFilter
