import PacketFilter.Text.Lines

/-!
# Lines of a text

The lines of a stream are those of its text: cutting the bytes at line feeds and decoding the pieces is
cutting the characters. Main statements: `ofStream_ofText`, and `lines_unlines`, written lines are read
back.
-/

namespace PacketFilter

/-! ## Bytes of characters -/

/-- The bytes of characters in UTF-8. -/
def Text.encode (cs : List Char) : List UInt8 := cs.flatMap String.utf8EncodeChar

namespace Text

theorem toUTF8_eq_encode (text : String) : text.toUTF8.data.toList = encode text.toList := by
  rw [String.toUTF8_eq_toByteArray, ← String.utf8Encode_toList, List.utf8Encode, List.data_toByteArray,
    List.toList_toArray, encode]

theorem decode?_encode (cs : List Char) : Lines.decode? (encode cs) = some (String.ofList cs) := by
  have bytes : (⟨(encode cs).toArray⟩ : ByteArray) = cs.utf8Encode := by
    rw [List.utf8Encode]
    exact ByteArray.ext (by simp [encode])
  have valid : cs.utf8Encode.IsValidUTF8 := ByteArray.isValidUTF8_utf8Encode
  rw [Lines.decode?, bytes, String.fromUTF8?, dif_pos valid]
  refine congrArg some (String.toByteArray_inj.1 ?_)
  rw [String.toByteArray_ofList]
  rfl

/-- A byte below 128 is the whole of its character. -/
theorem toNat_eq_of_mem {c : Char} {byte : UInt8} (member : byte ∈ String.utf8EncodeChar c) (ascii : byte.toNat < 128) :
    c.toNat = byte.toNat := by
  have value : c.val.toNat = c.toNat := rfl
  unfold String.utf8EncodeChar at member
  simp only [value] at member
  split at member
  · obtain rfl := List.mem_singleton.1 member
    rw [UInt8.toNat_ofNat']
    omega
  · -- Every byte of a character of several bytes has its highest bit set.
    exfalso
    split at member
    · simp only [List.mem_cons, List.not_mem_nil, or_false] at member
      rcases member with rfl | rfl <;> rw [UInt8.toNat_ofNat'] at ascii <;> omega
    · split at member <;> simp only [List.mem_cons, List.not_mem_nil, or_false] at member
      · rcases member with rfl | rfl | rfl <;> rw [UInt8.toNat_ofNat'] at ascii <;> omega
      · rcases member with rfl | rfl | rfl | rfl <;> rw [UInt8.toNat_ofNat'] at ascii <;> omega

theorem not_mem_encode {c d : Char} {byte : UInt8} (ascii : byte.toNat < 128) (own : d.toNat = byte.toNat)
    (differ : c ≠ d) : byte ∉ String.utf8EncodeChar c := by
  intro member
  have same := (toNat_eq_of_mem member ascii).trans own.symm
  exact differ (Char.toNat_inj.1 same)

/-! ## Cutting at line feeds -/

theorem splitOn_append {α : Type} [BEq α] [LawfulBEq α] {a : α} {front : List α} (fresh : a ∉ front) (rest : List α) :
    (front ++ rest).splitOn a = (rest.splitOn a).modifyHead (front ++ ·) := by
  induction front with
  | nil =>
    have same : (fun piece : List α => [] ++ piece) = id := rfl
    rw [same]
    simp
  | cons b front ih =>
    have differ : (b == a) = false := beq_false_of_ne fun same => fresh (by simp [same])
    rw [List.cons_append, List.splitOn_cons_eq_if_modifyHead, if_neg (by simp [differ]), ih fun inside => fresh (by simp [inside])]
    cases rest.splitOn a <;> simp

/-- Cutting the bytes at line feeds cuts the characters at line feeds. -/
theorem splitOn_encode (cs : List Char) : (encode cs).splitOn 0x0A = (cs.splitOn '\n').map encode := by
  induction cs with
  | nil => rfl
  | cons c cs ih =>
    have spread : encode (c :: cs) = String.utf8EncodeChar c ++ encode cs := List.flatMap_cons
    by_cases feed : c = '\n'
    · subst feed
      have own : String.utf8EncodeChar '\n' = [0x0A] := by decide
      rw [spread, own, List.singleton_append, List.splitOn_cons_eq_if_modifyHead, if_pos (by decide),
        List.splitOn_cons_eq_if_modifyHead, if_pos (by decide), ih]
      rfl
    · have fresh : (0x0A : UInt8) ∉ String.utf8EncodeChar c := not_mem_encode (by decide) (by decide) feed
      have other : (c == '\n') = false := beq_false_of_ne feed
      rw [spread, splitOn_append fresh, ih, List.splitOn_cons_eq_if_modifyHead, if_neg (by simp [other])]
      cases cs.splitOn '\n' <;> simp [encode]

/-- Characters without a carriage return at their end. -/
def withoutReturn (cs : List Char) : List Char := if cs.getLast? = some '\r' then cs.dropLast else cs

theorem withoutReturn_encode (cs : List Char) : Lines.withoutReturn (encode cs) = encode (withoutReturn cs) := by
  rcases List.eq_nil_or_concat cs with rfl | ⟨front, c, rfl⟩
  · rfl
  · rw [List.concat_eq_append]
    have spread : encode (front ++ [c]) = encode front ++ String.utf8EncodeChar c := by simp [encode]
    by_cases ret : c = '\r'
    · subst ret
      have own : String.utf8EncodeChar '\r' = [0x0D] := by decide
      simp [Lines.withoutReturn, withoutReturn, spread, own]
    · have kept : withoutReturn (front ++ [c]) = front ++ [c] := if_neg (by simpa using ret)
      have other : (encode (front ++ [c])).getLast? ≠ some 0x0D := by
        intro last
        rw [spread, List.getLast?_append] at last
        cases found : (String.utf8EncodeChar c).getLast? with
        | none => exact String.utf8EncodeChar_ne_nil (List.getLast?_eq_none_iff.1 found)
        | some byte =>
          obtain rfl : byte = 0x0D := by simpa [found] using last
          exact not_mem_encode (by decide) (by decide) ret (List.mem_of_getLast? found)
      rw [kept, Lines.withoutReturn, if_neg other]

/-- The lines of pieces between line feeds; the last one counts if it is not empty. -/
def linesOf : List (List Char) → List String
  | [] => []
  | [tail] => if tail.isEmpty then [] else [String.ofList tail]
  | line :: piece :: pieces => String.ofList (withoutReturn line) :: linesOf (piece :: pieces)

/-- The lines of a text. -/
def lines (text : String) : List String := linesOf (text.toList.splitOn '\n')

theorem ofPieces_encode (pieces : List (List Char)) :
    Lines.ofPieces none (pieces.map encode) = ⟨linesOf pieces, none⟩ := by
  induction pieces with
  | nil => rfl
  | cons line pieces ih =>
    cases pieces with
    | nil =>
      cases line with
      | nil => rfl
      | cons c cs =>
        have nonempty : (encode (c :: cs)).isEmpty = false := by simp [encode, String.utf8EncodeChar_ne_nil]
        simp [Lines.ofPieces, Lines.ofTail, nonempty, Lines.cons, decode?_encode, linesOf]
    | cons piece pieces =>
      rw [List.map_cons] at ih
      rw [List.map_cons, List.map_cons, Lines.ofPieces, ih, withoutReturn_encode, Lines.cons, decode?_encode]
      rfl

/-- A stream that holds a text has the lines of the text. -/
theorem ofStream_ofText (text : String) : Lines.ofStream (.ofText text) = ⟨lines text, none⟩ := by
  rw [Lines.ofStream, ByteStream.ofText, toUTF8_eq_encode, splitOn_encode, ofPieces_encode]
  rfl

/-- The text of a line, without a carriage return at its end. -/
def line (text : String) : String := String.ofList (withoutReturn text.toList)

theorem lines_cons {text : String} (feed : '\n' ∉ text.toList) (rest : String) :
    lines (text ++ "\n" ++ rest) = line text :: lines rest := by
  have spread : (text ++ "\n" ++ rest).toList = text.toList ++ '\n' :: rest.toList := by simp
  rw [lines, spread, List.splitOn_append_cons_self_of_not_mem feed, lines]
  cases pieces : rest.toList.splitOn '\n' with
  | nil => exact absurd pieces (List.splitOn_ne_nil _ _)
  | cons piece pieces => rfl

/-- Texts that are written one after the other, each on one line, are read back line by line. -/
theorem lines_unlines {texts : List String} (whole : ∀ text ∈ texts, '\n' ∉ text.toList) :
    lines (String.join (texts.map (· ++ "\n"))) = texts.map line := by
  induction texts with
  | nil => rfl
  | cons text texts ih =>
    rw [List.map_cons, String.join_cons, lines_cons (whole text (by simp)), List.map_cons,
      ih fun other member => whole other (by simp [member])]

end Text

end PacketFilter
