import Mathlib.Data.List.Chain
import Mathlib.Data.List.TakeWhile
import Mathlib.Data.Option.Basic
import PacketFilter.Json.Lexeme

/-!
# Written lexemes

Lexemes that are written one after the other are read again, if numbers and words are separated by marks or strings. A
control character without an escape of its own is read as the code unit that it is written by. Main statements:
`scan?_append`, reading goes on where it stopped, and `scan?_flatMap_write`.
-/

namespace PacketFilter.Json

/-! ## Pieces of strings -/

namespace Piece

/-- What a character inside a string is read as, once it is written. -/
def spell (c : Char) : Piece :=
  if c.toNat < 0x20 ∧ c ∉ ['\x08', '\x0c', '\n', '\r', '\t'] then code c.toNat else char c

/-- What a piece is read as, once it is written. -/
def reread : Piece → Piece
  | char c => spell c
  | code unit => code unit

/-- A control character that is written by its code unit is still itself. -/
theorem decode?_spell_cons (c : Char) (pieces : List Piece) :
    decode? (spell c :: pieces) = (decode? pieces).map (c :: ·) := by
  unfold spell
  split
  · next control =>
    have notHigh : isHigh c.toNat = false := by simp [isHigh]; omega
    have notLow : isLow c.toNat = false := by simp [isLow]; omega
    rcases pieces with _ | ⟨_ | unit, pieces⟩ <;> simp [decode?, notHigh, notLow, Char.ofNat_toNat]
  · rw [decode?]

theorem decode?_map_spell (cs : List Char) : decode? (cs.map spell) = some cs := by
  induction cs with
  | nil => rfl
  | cons c cs ih => rw [List.map_cons, decode?_spell_cons, ih, Option.map_some]

end Piece

namespace Lexeme

/-! ## Reading in parts -/

/-- Reads characters up to their end, without completing the lexeme that stands there. -/
def run? (mode : Mode) : List Char → Option (Mode × List Lexeme)
  | [] => some (mode, [])
  | c :: cs => do
    let (next, lexemes) ← step? mode c
    let (last, rest) ← run? next cs
    return (last, lexemes ++ rest)

theorem run?_append (mode : Mode) (front back : List Char) :
    run? mode (front ++ back) = do
      let (next, lexemes) ← run? mode front
      let (last, rest) ← run? next back
      return (last, lexemes ++ rest) := by
  induction front generalizing mode with
  | nil => cases found : run? mode back <;> simp [run?, found]
  | cons c front ih => simp [run?, ih, Option.bind_assoc]

theorem scan?_eq_run? (mode : Mode) (cs : List Char) :
    scan? mode cs = do
      let (last, lexemes) ← run? mode cs
      return lexemes ++ (← finish? last) := by
  induction cs generalizing mode with
  | nil => simp [scan?, run?]
  | cons c cs ih => simp [scan?, run?, ih, Option.bind_assoc]

/-- Reading goes on where it stopped. -/
theorem scan?_append {mode next : Mode} {front : List Char} {lexemes : List Lexeme}
    (read : run? mode front = some (next, lexemes)) (back : List Char) :
    scan? mode (front ++ back) = (scan? next back).map (lexemes ++ ·) := by
  rw [scan?_eq_run?, scan?_eq_run?, run?_append, read]
  cases found : run? next back with
  | none => simp [found]
  | some last => cases ends : finish? last.1 <;> simp [found, ends]

/-! ## Strings -/

theorem hexValue?_hexDigit : ∀ value < 16, hexValue? (hexDigit value) = some value := by
  decide

/-- A written character is read as one piece. -/
theorem run?_writeChar (pieces : List Piece) (c : Char) :
    run? (.string pieces) (writeChar c) = some (.string (.spell c :: pieces), []) := by
  unfold writeChar
  iterate 7
    split
    · next special => subst special; rfl
  split
  · next control =>
    have high := hexValue?_hexDigit (c.toNat / 16) (by omega)
    have low := hexValue?_hexDigit (c.toNat % 16) (by omega)
    have zero : hexValue? '0' = some 0 := rfl
    have whole : 16 * (c.toNat / 16) + c.toNat % 16 = c.toNat := by omega
    have own : Piece.spell c = .code c.toNat := if_pos ⟨control, by simp [*]⟩
    simp [run?, step?, zero, high, low, whole, own]
  · next plain =>
    have own : Piece.spell c = .char c := if_neg fun control => plain control.1
    simp [run?, step?, *]

theorem write_string (cs : List Char) :
    (string (cs.map .char)).write = ['"'] ++ (cs.flatMap writeChar ++ ['"']) := by
  simp [write, List.flatMap_map, writePiece]

theorem run?_writeText (pieces : List Piece) (cs : List Char) :
    run? (.string pieces) (cs.flatMap writeChar) = some (.string ((cs.map Piece.spell).reverse ++ pieces), []) := by
  induction cs generalizing pieces with
  | nil => rfl
  | cons c cs ih => simp [run?_append, run?_writeChar, ih]

/-! ## Numbers -/

theorem isDigit_toDigits (n : Nat) : ∀ c ∈ Nat.toDigits 10 n, c.isDigit = true :=
  fun _ member => Nat.isDigit_of_mem_toDigits (by decide) (by decide) member

theorem head?_toDigits {n : Nat} (positive : 0 < n) : (Nat.toDigits 10 n).head? ≠ some '0' := by
  induction n using Nat.strongRecOn with
  | ind n ih =>
    rw [Nat.toDigits_eq_if (by decide)]
    split
    · simp; omega
    · have front : (Nat.toDigits 10 (n / 10)).head? ≠ some '0' := ih (n / 10) (by omega) (by omega)
      obtain ⟨c, cs, digits⟩ := List.exists_cons_of_ne_nil (Nat.toDigits_ne_nil (n := n / 10) (b := 10))
      simpa [digits] using front

theorem isWhole_toDigits (n : Nat) : isWhole (Nat.toDigits 10 n) = true := by
  rcases Nat.eq_zero_or_pos n with rfl | positive
  · decide
  · simpa [isWhole, Nat.toDigits_ne_nil, head?_toDigits positive] using isDigit_toDigits n

theorem span_toDigits (n : Nat) :
    (Nat.toDigits 10 n).takeWhile Char.isDigit = Nat.toDigits 10 n ∧
      (Nat.toDigits 10 n).dropWhile Char.isDigit = [] := by
  exact ⟨List.takeWhile_eq_self_iff.2 (isDigit_toDigits n), List.dropWhile_eq_nil_iff.2 (isDigit_toDigits n)⟩

theorem toList_repr_ofNat (n : Nat) : (Int.ofNat n).repr.toList = Nat.toDigits 10 n := Nat.toList_repr

theorem toList_repr_negSucc (n : Nat) : (Int.negSucc n).repr.toList = '-' :: Nat.toDigits 10 (n + 1) := by
  show ("-" ++ (n + 1).repr).toList = _
  rw [String.toList_append, Nat.toList_repr]
  rfl

/-- A written integer is read as itself; zero has no sign. -/
theorem ofNumber?_repr (number : Int) : ofNumber? number.repr.toList = some (integer number) := by
  cases number with
  | ofNat n =>
    obtain ⟨c, cs, digits⟩ := List.exists_cons_of_ne_nil (Nat.toDigits_ne_nil (n := n) (b := 10))
    have first : c.isDigit = true := isDigit_toDigits n c (by simp [digits])
    have unsigned : c ≠ '-' := fun minus => absurd (minus ▸ first) (by decide)
    obtain ⟨inside, outside⟩ := span_toDigits n
    have whole := isWhole_toDigits n
    have value : Nat.ofDigitChars 10 (Nat.toDigits 10 n) 0 = n := Nat.ofDigitChars_ten_toDigits
    rw [toList_repr_ofNat]
    rw [digits] at inside outside whole value ⊢
    simp [ofNumber?, unsigned, inside, outside, whole, value]
  | negSucc n =>
    obtain ⟨inside, outside⟩ := span_toDigits (n + 1)
    have value : Nat.ofDigitChars 10 (Nat.toDigits 10 (n + 1)) 0 = n + 1 := Nat.ofDigitChars_ten_toDigits
    have negative : -((n + 1 : Nat) : Int) = Int.negSucc n := rfl
    rw [toList_repr_negSucc, ← negative]
    simp [ofNumber?, inside, outside, isWhole_toDigits, value]

/-! ## Lexemes one after the other -/

/-- Whether a lexeme ends only where another one begins. -/
def isOpen : Lexeme → Bool
  | null | bool _ | integer _ | decimal _ => true
  | _ => false

theorem isOpen_of_ofNumber? {cs : List Char} {lexeme : Lexeme} (read : ofNumber? cs = some lexeme) :
    lexeme.isOpen = true := by
  unfold ofNumber? at read
  dsimp only at read
  split_ifs at read <;> cases read <;> rfl

theorem isOpen_of_ofWord? {cs : List Char} {lexeme : Lexeme} (read : ofWord? cs = some lexeme) :
    lexeme.isOpen = true := by
  unfold ofWord? at read
  split_ifs at read <;> cases read <;> rfl

/-- The end of a text completes a number or a word, or nothing. -/
theorem finish?_cases {mode : Mode} {lexemes : List Lexeme} (ends : finish? mode = some lexemes) :
    mode = .between ∧ lexemes = [] ∨ ∃ lexeme, lexemes = [lexeme] ∧ lexeme.isOpen = true := by
  cases mode with
  | between => exact .inl ⟨rfl, by simpa [finish?] using ends.symm⟩
  | number digits =>
    obtain ⟨lexeme, read, rfl⟩ := Option.map_eq_some_iff.1 ends
    exact .inr ⟨lexeme, rfl, isOpen_of_ofNumber? read⟩
  | word letters =>
    obtain ⟨lexeme, read, rfl⟩ := Option.map_eq_some_iff.1 ends
    exact .inr ⟨lexeme, rfl, isOpen_of_ofWord? read⟩
  | _ => cases ends

/-- Whether a lexeme is written by a form of its own: a number is an integer, and a string has characters only. -/
def IsPlain : Lexeme → Prop
  | decimal _ => False
  | string pieces => ∃ cs : List Char, pieces = cs.map .char
  | _ => True

/-- No control character is written as it is. -/
theorem printable_writeChar (c : Char) : ∀ d ∈ writeChar c, 0x20 ≤ d.toNat := by
  unfold writeChar
  iterate 7
    split
    · simp
  split
  · next control =>
    have hexDigits : ∀ value < 16, 0x20 ≤ (hexDigit value).toNat := by decide
    have high := hexDigits (c.toNat / 16) (by omega)
    have low := hexDigits (c.toNat % 16) (by omega)
    simp [high, low]
  · next plain => simpa using plain

theorem printable_repr (number : Int) : ∀ c ∈ number.repr.toList, 0x20 ≤ c.toNat := by
  have digits (n : Nat) (c : Char) (member : c ∈ Nat.toDigits 10 n) : 0x20 ≤ c.toNat := by
    have digit := isDigit_toDigits n c member
    have low : '0' ≤ c := by simp [Char.isDigit] at digit; exact digit.1
    exact Nat.le_trans (by decide) low
  cases number with
  | ofNat n =>
    rw [toList_repr_ofNat]
    exact digits n
  | negSucc n =>
    rw [toList_repr_negSucc]
    exact List.forall_mem_cons.2 ⟨by decide, digits (n + 1)⟩

theorem printable_write {lexeme : Lexeme} (plain : lexeme.IsPlain) : ∀ c ∈ lexeme.write, 0x20 ≤ c.toNat := by
  cases lexeme with
  | integer number => exact printable_repr number
  | string pieces =>
    obtain ⟨cs, rfl⟩ := plain
    have inside : ∀ c ∈ cs.flatMap writeChar, 0x20 ≤ c.toNat := by
      simpa using fun c d _ => printable_writeChar d c
    rw [write_string, List.singleton_append]
    exact List.forall_mem_cons.2 ⟨by decide, List.forall_mem_append.2 ⟨inside, by simp⟩⟩
  | bool value => cases value <;> simp [write]
  | decimal text => exact plain.elim
  | _ => simp [write]

/-- What a lexeme is read as, once it is written. -/
def reread : Lexeme → Lexeme
  | string pieces => string (pieces.map Piece.reread)
  | lexeme => lexeme

/-- Characters that neither a number nor a word goes on with. -/
def Closes (cs : List Char) : Prop := ∀ c ∈ cs.head?, isNumberChar c = false ∧ c.isLower = false

theorem closes_write {lexeme : Lexeme} (closed : lexeme.isOpen = false) (cs : List Char) :
    Closes (lexeme.write ++ cs) := by
  cases lexeme with
  | null | bool | integer | decimal => simp [isOpen] at closed
  | _ =>
    intro c first
    obtain rfl : _ = c := by simpa [write] using first
    exact ⟨by decide, by decide⟩

/-- A number or a word that is not finished yet is completed by what does not go on with it. -/
theorem scan?_of_finish? {mode : Mode} {lexeme : Lexeme} (ends : finish? mode = some [lexeme]) {cs : List Char}
    (closes : Closes cs) : scan? mode cs = (scan? .between cs).map (lexeme :: ·) := by
  cases cs with
  | nil => simp [scan?, ends, show finish? .between = some [] from rfl]
  | cons c cs =>
    obtain ⟨noNumber, noWord⟩ := closes c rfl
    cases mode with
    | number digits =>
      have read : ofNumber? digits.reverse = some lexeme := by simpa [finish?] using ends
      cases started : start? c <;> simp [scan?, step?, noNumber, read, started]
    | word letters =>
      have read : ofWord? letters.reverse = some lexeme := by simpa [finish?] using ends
      cases started : start? c <;> simp [scan?, step?, noWord, read, started]
    | _ => simp [finish?] at ends

theorem run?_digits {cs : List Char} (digits : ∀ c ∈ cs, c.isDigit = true) (read : List Char) :
    run? (.number read) cs = some (.number (cs.reverse ++ read), []) := by
  induction cs generalizing read with
  | nil => rfl
  | cons c cs ih =>
    have goesOn : isNumberChar c = true := by simp [isNumberChar, digits c (by simp)]
    simp [run?, step?, goesOn, ih fun d member => digits d (by simp [member])]

theorem start?_of_isDigit {c : Char} (digit : c.isDigit = true) : start? c = some (.number [c], []) := by
  have unspaced : isSpace c = false := by
    rw [Bool.eq_false_iff]
    intro space
    simp only [isSpace, Bool.or_eq_true, beq_iff_eq] at space
    rcases space with ((rfl | rfl) | rfl) | rfl <;> exact absurd digit (by decide)
  have unquoted : c ≠ '"' := fun quote => absurd (quote ▸ digit) (by decide)
  simp [start?, unspaced, unquoted, digit]

/-- A written integer is read as far as it goes. -/
theorem run?_repr (number : Int) :
    run? .between number.repr.toList = some (.number number.repr.toList.reverse, []) := by
  cases number with
  | ofNat n =>
    have digits := isDigit_toDigits n
    obtain ⟨c, cs, spread⟩ := List.exists_cons_of_ne_nil (Nat.toDigits_ne_nil (n := n) (b := 10))
    rw [spread] at digits
    obtain ⟨first, others⟩ := List.forall_mem_cons.1 digits
    rw [toList_repr_ofNat, spread]
    simp [run?, step?, start?_of_isDigit first, run?_digits others]
  | negSucc n =>
    have minus : start? '-' = some (.number ['-'], []) := rfl
    rw [toList_repr_negSucc]
    simp [run?, step?, minus, run?_digits (isDigit_toDigits (n + 1))]

theorem run?_write_open {lexeme : Lexeme} (plain : lexeme.IsPlain) (isOpen : lexeme.isOpen = true) :
    ∃ mode, run? .between lexeme.write = some (mode, []) ∧ finish? mode = some [lexeme] := by
  cases lexeme with
  | null => exact ⟨_, rfl, rfl⟩
  | bool value => cases value <;> exact ⟨_, rfl, rfl⟩
  | integer number =>
    refine ⟨_, run?_repr number, ?_⟩
    simp [finish?, ofNumber?_repr]
  | decimal text => exact plain.elim
  | _ => cases isOpen

theorem run?_write_closed {lexeme : Lexeme} (plain : lexeme.IsPlain) (closed : lexeme.isOpen = false) :
    run? .between lexeme.write = some (.between, [lexeme.reread]) := by
  cases lexeme with
  | string pieces =>
    obtain ⟨cs, rfl⟩ := plain
    have quote : run? .between ['"'] = some (.string [], []) := rfl
    have closing (pieces : List Piece) : run? (.string pieces) ['"'] = some (.between, [string pieces.reverse]) := rfl
    simp only [write_string, run?_append, quote, run?_writeText, closing, Option.bind_eq_bind, Option.bind_some]
    simp [reread, Piece.reread, Function.comp_def]
  | null | bool | integer | decimal => simp [isOpen] at closed
  | _ => rfl

/-- A written lexeme is read again, if what follows does not go on with it. -/
theorem scan?_write {lexeme : Lexeme} (plain : lexeme.IsPlain) {cs : List Char} (closes : lexeme.isOpen = true → Closes cs) :
    scan? .between (lexeme.write ++ cs) = (scan? .between cs).map (lexeme.reread :: ·) := by
  cases isOpen : lexeme.isOpen with
  | true =>
    obtain ⟨mode, read, ends⟩ := run?_write_open plain isOpen
    have same : lexeme.reread = lexeme := by cases lexeme <;> first | rfl | cases isOpen
    rw [scan?_append read, same, ← scan?_of_finish? ends (closes isOpen)]
    simp
  | false => exact scan?_append (run?_write_closed plain isOpen) cs

/-- Written lexemes are read again, if of two neighbours at least one ends by itself. -/
theorem scan?_flatMap_write {lexemes : List Lexeme} (plain : ∀ lexeme ∈ lexemes, lexeme.IsPlain)
    (separated : lexemes.IsChain fun a b => a.isOpen = true → b.isOpen = false) :
    scan? .between (lexemes.flatMap write) = some (lexemes.map reread) := by
  induction lexemes with
  | nil => rfl
  | cons lexeme lexemes ih =>
    have closes : lexeme.isOpen = true → Closes (lexemes.flatMap write) := by
      intro isOpen
      cases lexemes with
      | nil => simp [Closes]
      | cons next lexemes => exact closes_write (separated.rel isOpen) _
    rw [List.flatMap_cons, scan?_write (plain lexeme (by simp)) closes,
      ih (fun other member => plain other (by simp [member])) separated.tail]
    rfl

end Lexeme

end PacketFilter.Json
