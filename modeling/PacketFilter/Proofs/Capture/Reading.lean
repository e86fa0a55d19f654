import PacketFilter.Capture
import PacketFilter.Proofs.Json.Codec
import PacketFilter.Proofs.Text.Lines

/-!
# Captures that are read back

Packets that are appended to a new capture, at once or in several sessions, are read back in their order, and each of
them takes one line. Main statements: `readLines_append`, lines are read one after the other, and `read_sessions`.
-/

namespace PacketFilter.Capture

/-! ## Lines of packets -/

/-- Lines are read one after the other; the first one that cannot be read decides. -/
theorem readLines_append (line : Nat) (front back : List String) :
    readLines line (front ++ back) = do
      let first ← readLines line front
      let second ← readLines (line + front.length) back
      return first ++ second := by
  induction front generalizing line with
  | nil => cases found : readLines line back <;> simp [readLines, found] <;> rfl
  | cons text front ih =>
    have counted : line + 1 + front.length = line + (text :: front).length := by rw [List.length_cons]; omega
    rw [List.cons_append, readLines, readLines, ih, counted]
    split
    · rfl
    · split
      · cases readLines (line + 1) front with
        | error error => rfl
        | ok first => cases readLines (line + (text :: front).length) back <;> rfl
      · rfl

theorem not_isBlank_render (packet : Packet) : ¬ Text.IsBlank packet.render := by
  intro blank
  have first := blank '{' (List.mem_of_head? packet.head?_render)
  exact absurd first (by decide)

theorem readLines_render (line : Nat) (packets : List Packet) :
    readLines line (packets.map Packet.render) = .ok packets := by
  induction packets generalizing line with
  | nil => rfl
  | cons packet packets ih =>
    rw [List.map_cons, readLines, if_neg (not_isBlank_render packet), packet.parse?_render, ih]
    rfl

/-! ## Lines of files -/

/-- The text of packets, each on a line of its own. -/
def textOf (packets : List Packet) : String := String.join ((packets.map Packet.render).map (· ++ "\n"))

theorem bytes_textOf (packets : List Packet) : (textOf packets).toUTF8.data.toList = packets.flatMap lineOf := by
  induction packets with
  | nil => rfl
  | cons packet packets ih =>
    rw [Text.toUTF8_eq_encode] at ih
    rw [Text.toUTF8_eq_encode, List.flatMap_cons, ← ih, lineOf, Text.toUTF8_eq_encode]
    simp [textOf, Text.encode]

theorem lines_textOf (packets : List Packet) : Text.lines (textOf packets) = packets.map Packet.render := by
  have whole : ∀ text ∈ packets.map Packet.render, '\n' ∉ text.toList := by
    intro text written feed
    obtain ⟨packet, _, rfl⟩ := List.mem_map.1 written
    exact absurd (packet.printable_render '\n' feed) (by decide)
  have ended : ∀ packet ∈ packets, Text.line packet.render = packet.render := by
    intro packet _
    have noReturn : packet.render.toList.getLast? ≠ some '\r' := fun last =>
      absurd (packet.printable_render '\r' (List.mem_of_getLast? last)) (by decide)
    rw [Text.line, Text.withoutReturn, if_neg noReturn, String.ofList_toList]
  rw [textOf, Text.lines_unlines whole, List.map_map]
  exact List.map_congr_left ended

theorem ofStream_lines (packets : List Packet) :
    Lines.ofStream ⟨packets.flatMap lineOf, none⟩ = ⟨packets.map Packet.render, none⟩ := by
  rw [← bytes_textOf, ← lines_textOf]
  exact Text.ofStream_ofText (textOf packets)

/-! ## Sessions -/

theorem appendAll_eq (bytes : List UInt8) (packets : List Packet) :
    appendAll ⟨some bytes⟩ packets = ⟨some (bytes ++ packets.flatMap lineOf)⟩ := by
  induction packets generalizing bytes with
  | nil => simp [appendAll]
  | cons packet packets ih =>
    have goesOn := ih (bytes ++ lineOf packet)
    simpa [appendAll, append] using goesOn

theorem sessions_eq (bytes : List UInt8) (sessions : List (List Packet)) :
    sessions.foldl appendAll ⟨some bytes⟩ = ⟨some (bytes ++ sessions.flatten.flatMap lineOf)⟩ := by
  induction sessions generalizing bytes with
  | nil => simp
  | cons packets sessions ih => simp [appendAll_eq, ih]

/-- What several sessions append to a new capture is read back, and each packet takes one line, which is not blank. -/
theorem read_sessions (sessions : List (List Packet)) :
    (sessions.foldl appendAll created).read = .ok sessions.flatten ∧
      ∃ bytes, (sessions.foldl appendAll created).content? = some bytes ∧
        Lines.ofStream ⟨bytes, none⟩ = ⟨sessions.flatten.map Packet.render, none⟩ ∧
        ∀ packet ∈ sessions.flatten, ¬ Text.IsBlank packet.render := by
  have written : sessions.foldl appendAll created = ⟨some (sessions.flatten.flatMap lineOf)⟩ := sessions_eq [] sessions
  have lines := ofStream_lines sessions.flatten
  rw [written]
  refine ⟨?_, _, rfl, lines, fun packet _ => not_isBlank_render packet⟩
  simp only [read, lines, readLines_render]
  rfl

end PacketFilter.Capture
