/-!
# Numbers in text

Runs of ASCII digits with any leading zeros, and such runs behind a sign.
-/

namespace PacketFilter.Text

/-- The value of a non-empty run of digits, if it does not exceed `limit`. -/
def number? (limit : Nat) (digits : List Char) : Option Nat :=
  if !digits.isEmpty && digits.all Char.isDigit && Nat.ofDigitChars 10 digits 0 ≤ limit then
    some (Nat.ofDigitChars 10 digits 0)
  else none

/-- The greatest number of 64 bits with a sign; the least one is one further below zero. -/
def greatest : Nat := 0x7FFFFFFFFFFFFFFF

/-- The value of a run of digits with an optional sign, if it fits 64 bits. -/
def integer? (cs : List Char) : Option Int64 :=
  match cs with
  | '-' :: digits => (number? (greatest + 1) digits).map fun n => .ofInt (-n)
  | '+' :: digits => (number? greatest digits).map fun n => .ofInt n
  | digits => (number? greatest digits).map fun n => .ofInt n

theorem number?_eq_some_iff {limit n : Nat} {digits : List Char} :
    number? limit digits = some n ↔
      digits ≠ [] ∧ (∀ c ∈ digits, c.isDigit = true) ∧ Nat.ofDigitChars 10 digits 0 = n ∧ n ≤ limit := by
  simp only [number?, Bool.and_eq_true, Bool.not_eq_true', List.isEmpty_eq_false_iff, List.all_eq_true,
    decide_eq_true_eq, Option.ite_none_right_eq_some, Option.some.injEq]
  constructor
  · rintro ⟨⟨⟨nonempty, digits⟩, small⟩, rfl⟩; exact ⟨nonempty, digits, rfl, small⟩
  · rintro ⟨nonempty, digits, rfl, small⟩; exact ⟨⟨⟨nonempty, digits⟩, small⟩, rfl⟩

end PacketFilter.Text
