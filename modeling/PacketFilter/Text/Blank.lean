/-!
# Blank characters

The characters with the Unicode property `White_Space`, which separate the tokens of a rule and
surround the lines of a saved store. Main content: `isBlank`, `trim` and `IsBlank`.
-/

namespace PacketFilter.Text

/-- The inclusive ranges of code points with the property `White_Space`. -/
def blankRanges : List (Nat × Nat) :=
  [(0x9, 0xD), (0x20, 0x20), (0x85, 0x85), (0xA0, 0xA0), (0x1680, 0x1680), (0x2000, 0x200A), (0x2028, 0x2029),
    (0x202F, 0x202F), (0x205F, 0x205F), (0x3000, 0x3000)]

/-- A character is blank when its code point lies in one of the ranges. -/
def isBlank (c : Char) : Bool :=
  blankRanges.any fun (low, high) => low ≤ c.toNat && c.toNat ≤ high

/-- A text is blank when it holds blank characters only. -/
def IsBlank (text : String) : Prop := ∀ c ∈ text.toList, isBlank c = true

instance (text : String) : Decidable (IsBlank text) := List.decidableBAll _ text.toList

/-- The characters without the blank ones at both ends. -/
def trimmed (cs : List Char) : List Char :=
  ((cs.dropWhile isBlank).reverse.dropWhile isBlank).reverse

/-- The text without the blank characters at both ends. -/
def trim (text : String) : String := String.ofList (trimmed text.toList)

theorem isBlank_space : isBlank ' ' = true := by decide

end PacketFilter.Text
