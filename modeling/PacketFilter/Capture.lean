import PacketFilter.Json.Codec
import PacketFilter.Text.Blank
import PacketFilter.Text.Lines

/-!
# Captures

A capture is a file with the JSON of one packet on each line. Blank lines are skipped, but they count.
Main content: `Capture.append` and `Capture.read`.
-/

namespace PacketFilter

/-- Why packets cannot be read or written; lines are counted from one. -/
inductive CaptureError where
  | stream (error : StreamError)
  | malformedLine (line : Nat)
  deriving DecidableEq, Repr

/-- The error in words, if it is one of the stream. -/
def CaptureError.message? : CaptureError → Option String
  | stream error => error.message?
  | malformedLine _ => none

/-- A capture file, by its bytes; none while the file does not exist. -/
structure Capture where
  content? : Option (List UInt8)
  deriving DecidableEq, Repr

namespace Capture

/-- The capture of a file that does not exist. -/
def missing : Capture := ⟨none⟩

/-- The capture of an empty file. -/
def created : Capture := ⟨some []⟩

/-- The capture of a text. -/
def ofText (text : String) : Capture := ⟨some text.toUTF8.data.toList⟩

/-- The bytes of a packet's line. -/
def lineOf (packet : Packet) : List UInt8 := (packet.render ++ "\n").toUTF8.data.toList

/-- Adds a packet at the end of the file, which is made if it does not exist. -/
def append (capture : Capture) (packet : Packet) : Capture := ⟨some (capture.content?.getD [] ++ lineOf packet)⟩

/-- Adds packets one after the other. -/
def appendAll (capture : Capture) (packets : List Packet) : Capture := packets.foldl append capture

/-- The packets of the lines from a number on. -/
def readLines (line : Nat) : List String → Except CaptureError (List Packet)
  | [] => .ok []
  | text :: texts =>
    if Text.IsBlank text then readLines (line + 1) texts
    else
      match Packet.parse? text with
      | some packet => (readLines (line + 1) texts).map (packet :: ·)
      | none => .error (.malformedLine line)

/-- The packets of the file; the first line that cannot be read decides the error. -/
def read (capture : Capture) : Except CaptureError (List Packet) :=
  match capture.content? with
  | none => .error (.stream .notFound)
  | some bytes => do
    let lines := Lines.ofStream ⟨bytes, none⟩
    let packets ← readLines 1 lines.texts
    match lines.error? with
    | some error => .error (.stream error)
    | none => .ok packets

end Capture

end PacketFilter
