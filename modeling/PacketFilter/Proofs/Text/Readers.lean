import PacketFilter.Proofs.Text.Literals

/-!
# Reading from the front

A literal is also read from its front to its back: a number is the longest run of digits, a mark is one character,
a suffix that cannot be read is left where it is, and nothing may be left behind the whole. Such readers accept the
same texts, with the same values, as those that cut a text at its marks first. Main statements: `takes_address`,
`whole?_suffixed_eq_some_iff`, `network?_eq` and `target?_eq`.
-/

namespace PacketFilter

/-- A reader takes a value from the front of a text and leaves the characters behind it. -/
abbrev Reader (α : Type) := StateT (List Char) Option α

namespace Reader

open Text (number? IsNumeralUpTo number?_iff_isNumeral)

variable {α β : Type}

/-- One given character. -/
def mark (c : Char) : Reader Unit
  | [] => none
  | d :: rest => if d = c then some ((), rest) else none

/-- The longest run of digits, as a number up to a limit. -/
def number (limit : Nat) : Reader Nat := fun cs =>
  (number? limit (cs.takeWhile Char.isDigit)).map (·, cs.dropWhile Char.isDigit)

/-- A value that passes a test. -/
def verify (holds : α → Bool) (reader : Reader α) : Reader α := fun cs =>
  (reader cs).filter fun (value, _) => holds value

/-- A value behind a mark. -/
def behind (c : Char) (reader : Reader α) : Reader α := do
  mark c
  reader

/-- A value if there is one; otherwise nothing is taken. -/
def opt (reader : Reader α) : Reader (Option α) := fun cs =>
  match reader cs with
  | some (value, rest) => some (some value, rest)
  | none => some (none, cs)

/-- The value of a text, if nothing is left behind it. -/
def whole? (reader : Reader α) (cs : List Char) : Option α :=
  match reader cs with
  | some (value, []) => some value
  | _ => none

/-- A value, and behind it a mark and another value if both can be read. -/
def suffixed (first : Reader α) (c : Char) (last : Reader β) : Reader (α × Option β) := do
  let a ← first
  let b? ← opt (behind c last)
  return (a, b?)

/-! ## Literals -/

/-- Four numbers up to 255 with dots between them. -/
def address : Reader Address := do
  let a ← number 255
  mark '.'
  let b ← number 255
  mark '.'
  let c ← number 255
  mark '.'
  let d ← number 255
  return ⟨.ofNat a, .ofNat b, .ofNat c, .ofNat d⟩

/-- A prefix length: a number of eight bits that is at most 32. -/
def length : Reader Nat := verify (· ≤ 32) (number 255)

/-- A number up to 65535. -/
def port : Reader UInt16 := do
  let n ← number 65535
  return .ofNat n

/-- The network of an address and a prefix length, unless the length exceeds 32. -/
def networkOf? (address : Address) (n : Nat) : Option Network :=
  if small : n < 33 then some ⟨address, ⟨n, small⟩⟩ else none

/-- An address with an optional prefix length; without one all bits count. -/
def network? (cs : List Char) : Option Network := do
  let (address, length?) ← (address.suffixed '/' length).whole? cs
  networkOf? address (length?.getD 32)

/-- An address with an optional port. -/
def target? (cs : List Char) : Option Target := do
  let (address, port?) ← (address.suffixed ':' port).whole? cs
  return ⟨address, port?⟩

/-! ## What a reader takes -/

/-- What is left behind a number does not begin with a digit. -/
def Ends (rest : List Char) : Prop := ∀ c ∈ rest.head?, c.isDigit = false

/-- A reader takes the words of a language with their values, wherever the word is not followed by a digit. -/
def Takes (reader : Reader α) (spells : List Char → α → Prop) : Prop :=
  ∀ cs value rest, reader cs = some (value, rest) ↔ ∃ front, cs = front ++ rest ∧ spells front value ∧ Ends rest

theorem ends_nil : Ends [] := by
  intro c member
  cases member

theorem ends_cons {c : Char} (noDigit : c.isDigit = false) (rest : List Char) : Ends (c :: rest) := by
  intro d member
  obtain rfl : c = d := by simpa using member
  exact noDigit

theorem mark_eq_some_iff {c : Char} {u : Unit} {cs rest : List Char} : mark c cs = some (u, rest) ↔ cs = c :: rest := by
  cases cs with
  | nil => simp [mark]
  | cons d cs => simp [mark]

theorem bind_eq_some_iff {reader : Reader α} {next : α → Reader β} {cs rest : List Char} {value : β} :
    (reader >>= next) cs = some (value, rest) ↔
      ∃ a mid, reader cs = some (a, mid) ∧ next a mid = some (value, rest) := by
  simp [bind, StateT.bind, Option.bind_eq_some_iff]

theorem pure_eq_some_iff {a value : α} {cs rest : List Char} :
    (pure a : Reader α) cs = some (value, rest) ↔ a = value ∧ cs = rest := by
  show some (a, cs) = some (value, rest) ↔ _
  rw [Option.some.injEq, Prod.mk.injEq]

theorem behind_eq_some_iff {reader : Reader α} {c : Char} {cs rest : List Char} {value : α} :
    behind c reader cs = some (value, rest) ↔ ∃ back, cs = c :: back ∧ reader back = some (value, rest) := by
  simp [behind, bind_eq_some_iff, mark_eq_some_iff]

theorem opt_eq_some_iff {reader : Reader α} {cs rest : List Char} {value? : Option α} :
    opt reader cs = some (value?, rest) ↔
      (∃ value, value? = some value ∧ reader cs = some (value, rest)) ∨ value? = none ∧ reader cs = none ∧ rest = cs := by
  unfold opt
  cases found : reader cs with
  | none => simp [eq_comm]
  | some front =>
    obtain ⟨value, back⟩ := front
    constructor
    · intro same
      obtain ⟨rfl, rfl⟩ := Prod.mk.inj (Option.some.inj same)
      exact .inl ⟨value, rfl, rfl⟩
    · rintro (⟨_, rfl, same⟩ | ⟨-, none, -⟩)
      · obtain ⟨rfl, rfl⟩ := Prod.mk.inj (Option.some.inj same)
        rfl
      · cases none

theorem whole?_eq_some {reader : Reader α} {cs : List Char} {value : α} :
    reader.whole? cs = some value ↔ reader cs = some (value, []) := by
  unfold whole?
  split
  · rename_i found
    simp [found]
  · rename_i other
    constructor
    · intro none
      cases none
    · intro found
      exact absurd found (other value)

theorem takes_number (limit : Nat) : (number limit).Takes (IsNumeralUpTo limit) := by
  intro cs n rest
  rw [number, Option.map_eq_some_iff]
  constructor
  · rintro ⟨_, read, same⟩
    obtain ⟨rfl, rfl⟩ := Prod.mk.inj same
    refine ⟨_, List.takeWhile_append_dropWhile.symm, number?_iff_isNumeral.1 read, fun c member => ?_⟩
    have stopped := List.head?_dropWhile_not Char.isDigit cs
    rwa [Option.mem_def.1 member] at stopped
  · rintro ⟨front, rfl, numeral, ends⟩
    have stops : rest.takeWhile Char.isDigit = [] ∧ rest.dropWhile Char.isDigit = rest := by
      cases rest with
      | nil => exact ⟨rfl, rfl⟩
      | cons c rest =>
        have noDigit : c.isDigit = false := ends c rfl
        simp [noDigit]
    refine ⟨n, ?_, ?_⟩
    · rw [List.takeWhile_append_of_pos numeral.1.isDigit, stops.1, List.append_nil]
      exact number?_iff_isNumeral.2 numeral
    · rw [List.dropWhile_append_of_pos numeral.1.isDigit, stops.2]

namespace Takes

variable {reader : Reader α} {spells : List Char → α → Prop}

theorem congr (takes : reader.Takes spells) {same : List Char → α → Prop}
    (iff : ∀ cs value, spells cs value ↔ same cs value) : reader.Takes same := by
  intro cs value rest
  simp only [takes cs value rest, iff]

theorem verify (takes : reader.Takes spells) (holds : α → Bool) :
    (reader.verify holds).Takes fun cs value => spells cs value ∧ holds value = true := by
  intro cs value rest
  rw [Reader.verify, Option.filter_eq_some_iff, takes]
  constructor
  · rintro ⟨⟨front, rfl, word, ends⟩, passes⟩
    exact ⟨front, rfl, ⟨word, passes⟩, ends⟩
  · rintro ⟨front, rfl, ⟨word, passes⟩, ends⟩
    exact ⟨⟨front, rfl, word, ends⟩, passes⟩

theorem map (takes : reader.Takes spells) (f : α → β) :
    Takes (do return f (← reader)) fun cs value => ∃ a, spells cs a ∧ f a = value := by
  intro cs value rest
  simp only [bind_eq_some_iff, pure_eq_some_iff, takes _ _ _]
  constructor
  · rintro ⟨a, _, ⟨front, rfl, word, ends⟩, rfl, rfl⟩
    exact ⟨front, rfl, ⟨a, word, rfl⟩, ends⟩
  · rintro ⟨front, rfl, ⟨a, word, rfl⟩, ends⟩
    exact ⟨a, rest, ⟨front, rfl, word, ends⟩, rfl, rfl⟩

/-- A word, a mark and the words of what follows. -/
theorem marked (takes : reader.Takes spells) {c : Char} (noDigit : c.isDigit = false) {next : α → Reader β}
    {spellsNext : α → List Char → β → Prop} (follows : ∀ a, (next a).Takes (spellsNext a)) :
    Takes (do let a ← reader; mark c; next a) fun cs value =>
      ∃ front a back, cs = front ++ c :: back ∧ spells front a ∧ spellsNext a back value := by
  intro cs value rest
  simp only [bind_eq_some_iff, mark_eq_some_iff, takes _ _ _, follows _ _ _ _]
  constructor
  · rintro ⟨a, _, ⟨front, rfl, word, -⟩, -, _, rfl, back, rfl, later, ends⟩
    exact ⟨front ++ c :: back, by simp, ⟨front, a, back, rfl, word, later⟩, ends⟩
  · rintro ⟨_, rfl, ⟨front, a, back, rfl, word, later⟩, ends⟩
    exact ⟨a, c :: (back ++ rest), ⟨front, by simp, word, ends_cons noDigit _⟩, (), _, rfl, back, rfl, later, ends⟩

theorem whole?_eq_some_iff (takes : reader.Takes spells) {cs : List Char} {value : α} :
    reader.whole? cs = some value ↔ spells cs value := by
  rw [whole?_eq_some, takes]
  constructor
  · rintro ⟨front, rfl, word, -⟩
    rwa [List.append_nil]
  · intro word
    exact ⟨cs, by simp, word, ends_nil⟩

end Takes

/-! ## What literals take -/

theorem takes_address : address.Takes IsAddress := by
  have octet := takes_number 255
  have noDigit : Char.isDigit '.' = false := by decide
  have four := octet.marked noDigit fun a => octet.marked noDigit fun b => octet.marked noDigit fun c =>
    octet.map fun d => (⟨.ofNat a, .ofNat b, .ofNat c, .ofNat d⟩ : Address)
  refine four.congr fun cs value => ⟨?_, ?_⟩
  · rintro ⟨as, a, _, rfl, first, bs, b, _, rfl, second, cs, c, ds, rfl, third, d, fourth, rfl⟩
    exact .dotted first second third fourth
  · rintro ⟨first, second, third, fourth⟩
    exact ⟨_, _, _, rfl, first, _, _, _, rfl, second, _, _, _, rfl, third, _, fourth, rfl⟩

theorem takes_length : length.Takes (IsNumeralUpTo 32) := by
  refine ((takes_number 255).verify (· ≤ 32)).congr fun cs n => ?_
  constructor
  · rintro ⟨numeral, small⟩
    exact ⟨numeral.1, by simpa using small⟩
  · rintro numeral
    exact ⟨⟨numeral.1, Nat.le_trans numeral.2 (by decide)⟩, by simpa using numeral.2⟩

theorem takes_port : port.Takes IsPort := by
  refine ((takes_number 65535).map UInt16.ofNat).congr fun cs value => ?_
  constructor
  · rintro ⟨n, numeral, rfl⟩
    exact .numeral numeral
  · rintro ⟨numeral⟩
    exact ⟨_, numeral, rfl⟩

theorem networkOf?_eq_some_iff {address : Address} {n : Nat} {network : Network} :
    networkOf? address n = some network ↔ n ≤ 32 ∧ ⟨address, Fin.ofNat 33 n⟩ = network := by
  unfold networkOf?
  split
  · rename_i small
    have same : (⟨n, small⟩ : Fin 33) = Fin.ofNat 33 n := Fin.ext (Nat.mod_eq_of_lt small).symm
    simp [same, Nat.le_of_lt_succ small]
  · rename_i large
    simp only [reduceCtorEq, false_iff]
    omega

/-- A text with an optional suffix is a word alone, or a word with a mark and the suffix behind it. -/
theorem whole?_suffixed_eq_some_iff {first : Reader α} {last : Reader β} {spells : List Char → α → Prop}
    {spellsLast : List Char → β → Prop} (takes : first.Takes spells) (takesLast : last.Takes spellsLast) {c : Char}
    (noDigit : c.isDigit = false) {cs : List Char} {a : α} {b? : Option β} :
    (first.suffixed c last).whole? cs = some (a, b?) ↔
      b? = none ∧ spells cs a ∨
        ∃ front back b, b? = some b ∧ cs = front ++ c :: back ∧ spells front a ∧ spellsLast back b := by
  rw [whole?_eq_some, suffixed]
  simp only [bind_eq_some_iff, pure_eq_some_iff, Prod.mk.injEq]
  constructor
  · rintro ⟨_, _, head, _, _, tail, ⟨rfl, rfl⟩, rfl⟩
    obtain ⟨front, rfl, word, -⟩ := (takes _ _ _).1 head
    rcases opt_eq_some_iff.1 tail with ⟨b, rfl, suffix⟩ | ⟨rfl, -, rfl⟩
    · obtain ⟨_, rfl, read⟩ := behind_eq_some_iff.1 suffix
      obtain ⟨back, rfl, later, -⟩ := (takesLast _ _ _).1 read
      exact .inr ⟨front, back, b, rfl, by simp, word, later⟩
    · exact .inl ⟨rfl, by simpa using word⟩
  · rintro (⟨rfl, word⟩ | ⟨front, back, b, rfl, rfl, word, later⟩)
    · have head : first cs = some (a, []) := (takes _ _ _).2 ⟨cs, by simp, word, ends_nil⟩
      exact ⟨a, [], head, none, [], rfl, ⟨rfl, rfl⟩, rfl⟩
    · have head : first (front ++ c :: back) = some (a, c :: back) :=
        (takes _ _ _).2 ⟨front, rfl, word, ends_cons noDigit back⟩
      have read : last back = some (b, []) := (takesLast _ _ _).2 ⟨back, by simp, later, ends_nil⟩
      have tail : opt (behind c last) (c :: back) = some (some b, []) :=
        opt_eq_some_iff.2 (.inl ⟨b, rfl, behind_eq_some_iff.2 ⟨back, rfl, read⟩⟩)
      exact ⟨a, _, head, some b, [], tail, ⟨rfl, rfl⟩, rfl⟩

theorem network?_eq_some_iff {cs : List Char} {network : Network} : network? cs = some network ↔ IsNetwork cs network := by
  simp only [network?, Option.bind_eq_bind, Option.bind_eq_some_iff, Prod.exists, networkOf?_eq_some_iff,
    whole?_suffixed_eq_some_iff takes_address takes_length (c := '/') (by decide)]
  constructor
  · rintro ⟨address, length?, ⟨rfl, front⟩ | ⟨_, _, n, rfl, rfl, front, back⟩, -, rfl⟩
    · exact .host front
    · exact .withLength front back
  · intro spelled
    cases spelled with
    | host front => exact ⟨_, none, .inl ⟨rfl, front⟩, by decide, rfl⟩
    | withLength front back => exact ⟨_, some _, .inr ⟨_, _, _, rfl, rfl, front, back⟩, back.2, rfl⟩

theorem target?_eq_some_iff {cs : List Char} {target : Target} : target? cs = some target ↔ IsTarget cs target := by
  simp only [target?, Option.bind_eq_bind, Option.bind_eq_some_iff, Prod.exists, Option.pure_def, Option.some.injEq,
    whole?_suffixed_eq_some_iff takes_address takes_port (c := ':') (by decide)]
  constructor
  · rintro ⟨address, port?, ⟨rfl, front⟩ | ⟨_, _, _, rfl, rfl, front, ⟨back⟩⟩, rfl⟩
    · exact .host front
    · exact .withPort front back
  · intro spelled
    cases spelled with
    | host front => exact ⟨_, none, .inl ⟨rfl, front⟩, rfl⟩
    | withPort front back => exact ⟨_, some _, .inr ⟨_, _, _, rfl, rfl, front, .numeral back⟩, rfl⟩

/-! ## Agreement -/

/-- Two readings of one language are the same. -/
theorem eq_of_reads {read? other? : List Char → Option α} {spells : List Char → α → Prop}
    (reads : ∀ {cs value}, read? cs = some value ↔ spells cs value)
    (readsOther : ∀ {cs value}, other? cs = some value ↔ spells cs value) : read? = other? := by
  funext cs
  exact Option.ext fun value => reads.trans readsOther.symm

theorem whole?_number (limit : Nat) : (number limit).whole? = number? limit :=
  eq_of_reads (takes_number limit).whole?_eq_some_iff number?_iff_isNumeral

theorem whole?_address : address.whole? = Literal.address? :=
  eq_of_reads takes_address.whole?_eq_some_iff Literal.address?_eq_some_iff

theorem whole?_port : port.whole? = Literal.port? :=
  eq_of_reads takes_port.whole?_eq_some_iff Literal.port?_eq_some_iff

/-- A network that is cut at its slash is an address with an optional prefix length behind it. -/
theorem network?_eq : network? = Literal.network? :=
  eq_of_reads network?_eq_some_iff Literal.network?_eq_some_iff

/-- A target that is cut at its colon is an address with an optional port behind it. -/
theorem target?_eq : target? = Literal.target? :=
  eq_of_reads target?_eq_some_iff Literal.target?_eq_some_iff

end Reader

end PacketFilter
