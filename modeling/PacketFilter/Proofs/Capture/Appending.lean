import PacketFilter.Proofs.Capture.Reading

/-!
# Appending to captures

A packet that is appended to a capture goes on with the line that stands behind the last line feed. If that line holds
spaces at most, the packet is read behind the others; if it holds a packet, or a blank character that is no space of
JSON, the line cannot be read any more. Main statement: `read_append`.
-/

namespace PacketFilter

/-! ## Streams of texts -/

namespace Lines

theorem eq_encode_of_decode? {bytes : List UInt8} {text : String} (decoded : decode? bytes = some text) :
    bytes = Text.encode text.toList := by
  rw [← Text.toUTF8_eq_encode]
  unfold decode? String.fromUTF8? at decoded
  split at decoded <;> cases decoded
  rfl

theorem exists_encode_of_withoutReturn {line : List UInt8} {text : String}
    (decoded : decode? (withoutReturn line) = some text) : ∃ cs, line = Text.encode cs := by
  have inside := eq_encode_of_decode? decoded
  unfold withoutReturn at inside
  split at inside
  · next last =>
    have own : Text.encode ['\r'] = [0x0D] := by decide
    refine ⟨text.toList ++ ['\r'], ?_⟩
    rw [Text.encode, List.flatMap_append, ← Text.encode, ← Text.encode, ← inside, own]
    exact (List.dropLast_append_getLast? _ last).symm
  · exact ⟨text.toList, inside⟩

theorem exists_pieces {pieces : List (List UInt8)} (complete : (ofPieces none pieces).error? = none) :
    ∃ texts : List (List Char), pieces = texts.map Text.encode := by
  induction pieces with
  | nil => exact ⟨[], rfl⟩
  | cons line pieces ih =>
    cases pieces with
    | nil =>
      cases line with
      | nil => exact ⟨[[]], rfl⟩
      | cons byte line =>
        cases decoded : decode? (byte :: line) with
        | none => simp [ofPieces, ofTail, cons, decoded] at complete
        | some text => exact ⟨[text.toList], by rw [eq_encode_of_decode? decoded, List.map_singleton]⟩
    | cons piece pieces =>
      rw [ofPieces, cons] at complete
      cases decoded : decode? (withoutReturn line) with
      | none => simp [decoded] at complete
      | some text =>
        rw [decoded] at complete
        obtain ⟨texts, rest⟩ := ih complete
        obtain ⟨cs, rfl⟩ := exists_encode_of_withoutReturn decoded
        exact ⟨cs :: texts, by rw [rest, List.map_cons]⟩

theorem encode_intercalate (texts : List (List Char)) :
    Text.encode (['\n'].intercalate texts) = [0x0A].intercalate (texts.map Text.encode) := by
  have own : String.utf8EncodeChar '\n' = [0x0A] := by decide
  induction texts with
  | nil => rfl
  | cons text texts ih =>
    cases texts with
    | nil => simp [List.intercalate]
    | cons next texts => simp_all [List.intercalate, Text.encode]

/-- A stream that is read to its end holds a text. -/
theorem exists_text {bytes : List UInt8} (complete : (ofStream ⟨bytes, none⟩).error? = none) :
    ∃ text : String, bytes = Text.encode text.toList := by
  obtain ⟨texts, pieces⟩ := exists_pieces complete
  refine ⟨String.ofList (['\n'].intercalate texts), ?_⟩
  rw [String.toList_ofList, encode_intercalate, ← pieces, List.intercalate_splitOn]

end Lines

/-! ## Texts that go on -/

namespace Text

/-- What follows a list goes on with its last piece. -/
theorem splitOn_append_modifyHead {α : Type} [BEq α] [LawfulBEq α] (a : α) (front back : List α) :
    (front ++ back).splitOn a =
      (front.splitOn a).dropLast ++ (back.splitOn a).modifyHead ((front.splitOn a).getLastD [] ++ ·) := by
  induction front with
  | nil => cases pieces : back.splitOn a <;> simp [pieces]
  | cons b front ih =>
    rw [List.cons_append, List.splitOn_cons_eq_if_modifyHead, List.splitOn_cons_eq_if_modifyHead, ih]
    have nonempty : front.splitOn a ≠ [] := List.splitOn_ne_nil a front
    rcases pieces : front.splitOn a with _ | ⟨piece, _ | ⟨next, pieces⟩⟩
    · exact absurd pieces nonempty
    · split <;> cases rest : back.splitOn a <;> simp
    · split <;> cases rest : back.splitOn a <;> simp

/-- The lines of a text that a line feed ends. -/
def endedLines (text : String) : List String :=
  (text.toList.splitOn '\n').dropLast.map fun cs => String.ofList (withoutReturn cs)

/-- What stands behind the last line feed. -/
def lastLine (text : String) : List Char := (text.toList.splitOn '\n').getLastD []

theorem linesOf_append (front : List (List Char)) {back : List (List Char)} (nonempty : back ≠ []) :
    linesOf (front ++ back) = front.map (fun cs => String.ofList (withoutReturn cs)) ++ linesOf back := by
  induction front with
  | nil => rfl
  | cons piece front ih =>
    obtain ⟨next, pieces, whole⟩ := List.exists_cons_of_ne_nil (List.append_ne_nil_of_right_ne_nil front nonempty)
    rw [whole] at ih
    rw [List.cons_append, whole, linesOf, ih, List.map_cons, List.cons_append]

theorem splitOn_eq (text : String) : text.toList.splitOn '\n' = (text.toList.splitOn '\n').dropLast ++ [lastLine text] := by
  have nonempty : text.toList.splitOn '\n' ≠ [] := List.splitOn_ne_nil _ _
  obtain ⟨front, last, pieces⟩ := List.eq_nil_or_concat _ |>.resolve_left nonempty
  rw [lastLine, pieces]
  simp

theorem lines_eq (text : String) : lines text = endedLines text ++ linesOf [lastLine text] := by
  rw [lines, splitOn_eq, linesOf_append _ (List.cons_ne_nil _ _), ← endedLines]

/-- A line that is written behind a text goes on with its last line. -/
theorem lines_append {line : String} (feed : '\n' ∉ line.toList) (noReturn : line.toList.getLast? ≠ some '\r')
    (nonempty : line.toList ≠ []) (text : String) :
    lines (text ++ (line ++ "\n")) = endedLines text ++ [String.ofList (lastLine text ++ line.toList)] := by
  have written : (line ++ "\n").toList.splitOn '\n' = [line.toList, []] := by
    rw [String.toList_append]
    exact List.splitOn_append_cons_self_of_not_mem feed []
  have kept : withoutReturn (lastLine text ++ line.toList) = lastLine text ++ line.toList := by
    rw [withoutReturn, if_neg]
    rwa [List.getLast?_append_of_ne_nil _ nonempty]
  rw [lines, String.toList_append, splitOn_append_modifyHead, written, List.modifyHead_cons, ← lastLine,
    linesOf_append _ (List.cons_ne_nil _ _), ← endedLines, linesOf, kept]
  rfl

end Text

/-! ## Spaces and blank characters -/

namespace Json.Lexeme

theorem scan?_spaces {front : List Char} (spaces : ∀ c ∈ front, isSpace c = true) (back : List Char) :
    scan? .between (front ++ back) = scan? .between back := by
  induction front with
  | nil => rfl
  | cons c front ih =>
    obtain ⟨first, others⟩ := List.forall_mem_cons.1 spaces
    have started : start? c = some (.between, []) := if_pos first
    simp [scan?, step?, started, ih others]

theorem start?_of_isBlank {c : Char} (blank : Text.isBlank c = true) (other : isSpace c = false) : start? c = none := by
  have away : c.toNat < 0x20 ∨ 0x7F < c.toNat := by
    have noSpace : c.toNat ≠ 0x20 := fun same => by
      obtain rfl : c = ' ' := Char.toNat_inj.1 same
      exact absurd other (by decide)
    simp [Text.isBlank, Text.blankRanges] at blank
    omega
  have outside (low high : Char) (visible : 0x20 ≤ low.toNat ∧ high.toNat ≤ 0x7F) : ¬ (low.val ≤ c.val ∧ c.val ≤ high.val) := by
    rintro ⟨above, below⟩
    have above : low.toNat ≤ c.toNat := above
    have below : c.toNat ≤ high.toNat := below
    omega
  have differs (d : Char) (visible : 0x20 ≤ d.toNat ∧ d.toNat ≤ 0x7F) : c ≠ d := by
    rintro rfl
    exact outside c c visible ⟨Char.le_refl c, Char.le_refl c⟩
  have unquoted : c ≠ '"' := differs _ (by decide)
  have unsigned : c ≠ '-' := differs _ (by decide)
  have noMember (low high : Char) (visible : 0x20 ≤ low.toNat ∧ high.toNat ≤ 0x7F) :
      (decide (low.val ≤ c.val) && decide (c.val ≤ high.val)) = false := by simpa using outside low high visible
  have noDigit : c.isDigit = false := noMember '0' '9' (by decide)
  have noLetter : c.isLower = false := noMember 'a' 'z' (by decide)
  have noMark : ofMark? c = none := by
    unfold ofMark?
    split <;> first | rfl | exact absurd rfl (differs _ (by decide))
  simp [start?, other, unquoted, unsigned, noDigit, noLetter, noMark]

/-- Blank characters that are not all spaces do not stand between lexemes. -/
theorem scan?_blank {front : List Char} (blank : ∀ c ∈ front, Text.isBlank c = true)
    (other : ∃ c ∈ front, isSpace c = false) (back : List Char) : scan? .between (front ++ back) = none := by
  induction front with
  | nil => simp at other
  | cons c front ih =>
    obtain ⟨first, others⟩ := List.forall_mem_cons.1 blank
    cases space : isSpace c with
    | true =>
      have started : start? c = some (.between, []) := if_pos space
      have further := ih others (by simpa [space] using other)
      simp [scan?, step?, started, further]
    | false => simp [scan?, step?, start?_of_isBlank first space]

end Json.Lexeme

/-! ## Lines that go on with a packet -/

namespace Packet

theorem scan?_render (packet : Packet) : ∃ lexemes ≠ [], Json.Lexeme.scan? .between packet.render.toList = some lexemes := by
  have scanned := Json.Lexeme.scan?_flatMap_write packet.isPlain_toJson packet.toJson.separated_lexemes
  refine ⟨_, ?_, by rw [render, Json.render, String.toList_ofList, scanned]⟩
  simp [toJson, Json.lexemes]

/-- A line that spaces come before is still the line. -/
theorem parse?_spaces {front : List Char} (spaces : ∀ c ∈ front, Json.Lexeme.isSpace c = true) (packet : Packet) :
    parse? (String.ofList front ++ packet.render) = some packet := by
  have same : Json.parse? (String.ofList front ++ packet.render) = Json.parse? packet.render := by
    rw [Json.parse?, String.toList_append, String.toList_ofList, Json.Lexeme.scan?_spaces spaces, ← Json.parse?]
  rw [parse?, same]
  exact packet.parse?_render

/-- A line that goes on with a packet behind another one cannot be read. -/
theorem parse?_goesOn {text : String} {first : Packet} (parsed : parse? text = some first) (packet : Packet) :
    parse? (text ++ packet.render) = none := by
  obtain ⟨value, found, decoded⟩ := Option.bind_eq_some_iff.1 parsed
  have nested : value.IsNested := by
    cases value <;> trivial
  obtain ⟨lexemes, nonempty, scanned⟩ := packet.scan?_render
  have further : Json.Lexeme.scan? .between packet.render.toList ≠ some [] := by
    rw [scanned]
    simpa using nonempty
  rw [parse?, Json.parse?_append_of_nested found nested further]
  rfl

theorem parse?_blank {front : List Char} (blank : ∀ c ∈ front, Text.isBlank c = true)
    (other : ∃ c ∈ front, Json.Lexeme.isSpace c = false) (packet : Packet) :
    parse? (String.ofList front ++ packet.render) = none := by
  have unread := Json.Lexeme.scan?_blank blank other packet.render.toList
  rw [parse?, Json.parse?, String.toList_append, String.toList_ofList, unread]
  rfl

end Packet

namespace Capture

theorem isBlank_of_isSpace {c : Char} (space : Json.Lexeme.isSpace c = true) : Text.isBlank c = true := by
  simp only [Json.Lexeme.isSpace, Bool.or_eq_true, beq_iff_eq] at space
  rcases space with ((rfl | rfl) | rfl) | rfl <;> decide

theorem readLines_goesOn (line : Nat) (text : String) (packet : Packet) :
    readLines line [text ++ packet.render] =
      match Packet.parse? (text ++ packet.render) with
      | some packet => .ok [packet]
      | none => .error (.malformedLine line) := by
  have notBlank : ¬ Text.IsBlank (text ++ packet.render) := fun blank =>
    not_isBlank_render packet fun c inside => blank c (by simp [inside])
  rw [readLines, if_neg notBlank]
  cases Packet.parse? (text ++ packet.render) <;> rfl

/-- A line of spaces holds no packet, and a packet that it goes on with is read. -/
theorem readLines_spaces {cs : List Char} (spaces : ∀ c ∈ cs, Json.Lexeme.isSpace c = true) (line : Nat) (packet : Packet) :
    readLines line (Text.linesOf [cs]) = .ok [] ∧ readLines line [String.ofList cs ++ packet.render] = .ok [packet] := by
  constructor
  · unfold Text.linesOf
    split
    · rfl
    · have blank : Text.IsBlank (String.ofList cs) := fun c inside =>
        isBlank_of_isSpace (spaces c (by simpa using inside))
      rw [readLines, if_pos blank]
      rfl
  · rw [readLines_goesOn, Packet.parse?_spaces spaces]

/-- A line that is read, but holds more than spaces, cannot be read when it goes on with a packet. -/
theorem readLines_other {cs : List Char} (other : ∃ c ∈ cs, Json.Lexeme.isSpace c = false) {line : Nat} {packets : List Packet}
    (readable : readLines line (Text.linesOf [cs]) = .ok packets) (packet : Packet) :
    readLines line [String.ofList cs ++ packet.render] = .error (.malformedLine line) := by
  have unread : Packet.parse? (String.ofList cs ++ packet.render) = none := by
    by_cases blank : Text.IsBlank (String.ofList cs)
    · exact Packet.parse?_blank (by simpa [Text.IsBlank] using blank) other packet
    · have nonempty : cs.isEmpty = false := by
        obtain ⟨c, inside, _⟩ := other
        simpa using List.ne_nil_of_mem inside
      rw [Text.linesOf, nonempty, if_neg Bool.false_ne_true, readLines, if_neg blank] at readable
      cases parsed : Packet.parse? (String.ofList cs) with
      | none => simp [parsed] at readable
      | some first => exact Packet.parse?_goesOn parsed packet
  rw [readLines_goesOn, unread]

/-! ## Appending -/

theorem complete_of_read {bytes : List UInt8} {packets : List Packet} (readable : read ⟨some bytes⟩ = .ok packets) :
    (Lines.ofStream ⟨bytes, none⟩).error? = none := by
  simp only [read] at readable
  cases ends : (Lines.ofStream ⟨bytes, none⟩).error? with
  | none => rfl
  | some error =>
    rw [ends] at readable
    cases found : readLines 1 (Lines.ofStream ⟨bytes, none⟩).texts <;> rw [found] at readable <;> cases readable

theorem readLines_append_eq_ok {line : Nat} {front back : List String} {packets : List Packet}
    (readable : readLines line (front ++ back) = .ok packets) :
    ∃ first last, readLines line front = .ok first ∧ readLines (line + front.length) back = .ok last ∧
      first ++ last = packets := by
  rw [readLines_append] at readable
  cases before : readLines line front with
  | error error =>
    rw [before] at readable
    cases readable
  | ok first =>
    cases behind : readLines (line + front.length) back with
    | error error =>
      rw [before, behind] at readable
      cases readable
    | ok last =>
      rw [before, behind] at readable
      cases readable
      exact ⟨first, last, rfl, rfl, rfl⟩

/-- The bytes behind the last line feed. -/
def unfinished (bytes : List UInt8) : List UInt8 := (bytes.splitOn 0x0A).getLastD []

/-- Whether only spaces of JSON stand behind the last line feed. -/
def isEnded (bytes : List UInt8) : Bool := (unfinished bytes).all [0x20, 0x09, 0x0A, 0x0D].contains

/-- The bytes of characters are spaces if the characters are. -/
theorem spaces_encode (cs : List Char) :
    (∀ byte ∈ Text.encode cs, byte ∈ [0x20, 0x09, 0x0A, 0x0D]) ↔ ∀ c ∈ cs, Json.Lexeme.isSpace c = true := by
  constructor
  · intro spaces c inside
    obtain ⟨byte, bytes, own⟩ := List.exists_cons_of_ne_nil (String.utf8EncodeChar_ne_nil (c := c))
    have first : byte ∈ String.utf8EncodeChar c := by simp [own]
    have space := spaces byte (List.mem_flatMap.2 ⟨c, inside, first⟩)
    have small : ∀ byte ∈ ([0x20, 0x09, 0x0A, 0x0D] : List UInt8),
        byte.toNat < 128 ∧ Json.Lexeme.isSpace (.ofNat byte.toNat) = true := by
      simp [Json.Lexeme.isSpace]
    obtain ⟨ascii, isSpace⟩ := small byte space
    rwa [← Text.toNat_eq_of_mem first ascii, Char.ofNat_toNat] at isSpace
  · intro spaces byte inside
    obtain ⟨c, isIn, own⟩ := List.mem_flatMap.1 inside
    have space := spaces c isIn
    simp only [Json.Lexeme.isSpace, Bool.or_eq_true, beq_iff_eq] at space
    rcases space with ((rfl | rfl) | rfl) | rfl
    all_goals
      simp [String.utf8EncodeChar] at own
      simp [own]

theorem unfinished_encode (text : String) : unfinished (Text.encode text.toList) = Text.encode (Text.lastLine text) := by
  rw [unfinished, Text.splitOn_encode, Text.splitOn_eq]
  simp

theorem isEnded_encode (text : String) :
    isEnded (Text.encode text.toList) = true ↔ ∀ c ∈ Text.lastLine text, Json.Lexeme.isSpace c = true := by
  rw [← spaces_encode, ← unfinished_encode]
  simp [isEnded]

theorem length_splitOn_encode (text : String) :
    ((Text.encode text.toList).splitOn 0x0A).length = 1 + (Text.endedLines text).length := by
  rw [Text.splitOn_encode, Text.splitOn_eq, Text.endedLines]
  simp [Nat.add_comm]

theorem append_encode (text : String) (packet : Packet) :
    append ⟨some (Text.encode text.toList)⟩ packet = ⟨some (Text.encode (text ++ (packet.render ++ "\n")).toList)⟩ := by
  have spread : Text.encode (text ++ (packet.render ++ "\n")).toList =
      Text.encode text.toList ++ Text.encode (packet.render ++ "\n").toList := by
    rw [String.toList_append, Text.encode, List.flatMap_append, ← Text.encode, ← Text.encode]
  rw [append, lineOf, Text.toUTF8_eq_encode, spread]
  rfl

theorem ofStream_encode (text : String) : Lines.ofStream ⟨Text.encode text.toList, none⟩ = ⟨Text.lines text, none⟩ := by
  rw [← Text.toUTF8_eq_encode]
  exact Text.ofStream_ofText text

theorem read_encode (text : String) : read ⟨some (Text.encode text.toList)⟩ = readLines 1 (Text.lines text) := by
  simp only [read, ofStream_encode]
  cases readLines 1 (Text.lines text) <;> rfl

/-- What is read when the last line goes on with a packet: the lines before it are read as they were. -/
theorem read_append_eq {text : String} {first : List Packet} (before : readLines 1 (Text.endedLines text) = .ok first)
    (packet : Packet) :
    read (append ⟨some (Text.encode text.toList)⟩ packet) =
      (readLines (1 + (Text.endedLines text).length) [String.ofList (Text.lastLine text) ++ packet.render]).map
        (first ++ ·) := by
  have feed : '\n' ∉ packet.render.toList := fun inside => absurd (packet.printable_render '\n' inside) (by decide)
  have noReturn : packet.render.toList.getLast? ≠ some '\r' := fun last =>
    absurd (packet.printable_render '\r' (List.mem_of_getLast? last)) (by decide)
  have nonempty : packet.render.toList ≠ [] := by
    intro empty
    have first := packet.head?_render
    simp [empty] at first
  rw [append_encode, read_encode, Text.lines_append feed noReturn nonempty, readLines_append, String.ofList_append,
    String.ofList_toList, before]
  cases readLines (1 + (Text.endedLines text).length) [String.ofList (Text.lastLine text) ++ packet.render] <;> rfl

/-- A packet that is appended to a readable capture is read behind the others exactly if the last line feed has only
    spaces behind it; otherwise the last line, which goes on with it, cannot be read any more. -/
theorem read_append {bytes : List UInt8} {packets : List Packet} (readable : read ⟨some bytes⟩ = .ok packets)
    (packet : Packet) :
    (append ⟨some bytes⟩ packet).read =
      if isEnded bytes then .ok (packets ++ [packet])
      else .error (.malformedLine (bytes.splitOn 0x0A).length) := by
  obtain ⟨text, rfl⟩ := Lines.exists_text (complete_of_read readable)
  rw [read_encode, Text.lines_eq] at readable
  obtain ⟨first, last, before, behind, rfl⟩ := readLines_append_eq_ok readable
  rw [read_append_eq before, length_splitOn_encode]
  split
  · next spaces =>
    rw [isEnded_encode] at spaces
    obtain ⟨empty, goesOn⟩ := readLines_spaces spaces (1 + (Text.endedLines text).length) packet
    obtain rfl : [] = last := by simpa [empty] using behind
    rw [goesOn, List.append_nil]
    rfl
  · next others =>
    rw [isEnded_encode] at others
    have other : ∃ c ∈ Text.lastLine text, Json.Lexeme.isSpace c = false := by simpa using others
    rw [readLines_other other behind]
    rfl

theorem render_empty : Packet.empty.render = "\x7b\"layers\":\x7b\x7d\x7d" := by
  decide

/-- A line of spaces, and a carriage return in front of a line feed, do no harm. -/
theorem read_append_spaces :
    (append (ofText "\x7b\"layers\":\x7b\x7d\x7d\r\n \t") Packet.empty).read = .ok [Packet.empty, Packet.empty] := by
  have readable : (ofText "\x7b\"layers\":\x7b\x7d\x7d\r\n \t").read = .ok [Packet.empty] := by
    rw [ofText, Text.toUTF8_eq_encode, read_encode]
    decide
  rw [ofText] at readable ⊢
  have spaces : Text.lastLine "\x7b\"layers\":\x7b\x7d\x7d\r\n \t" = [' ', '\t'] := by decide
  rw [read_append readable, Text.toUTF8_eq_encode, if_pos]
  · rfl
  · rw [isEnded_encode, spaces]
    simp [Json.Lexeme.isSpace]

/-- A packet that no line feed ends is lost, and the appended one with it. -/
theorem append_behind_unended_line :
    (ofText "\x7b\"layers\":\x7b\x7d\x7d").read = .ok [Packet.empty] ∧
      (append (ofText "\x7b\"layers\":\x7b\x7d\x7d") Packet.empty).read = .error (.malformedLine 1) := by
  have before : readLines 1 (Text.endedLines "\x7b\"layers\":\x7b\x7d\x7d") = .ok [] := by decide
  rw [ofText, Text.toUTF8_eq_encode]
  refine ⟨?_, ?_⟩
  · rw [read_encode]
    decide
  · rw [read_append_eq before, render_empty]
    decide

end Capture

end PacketFilter
