import PacketFilter.Text.Blank

/-!
# Tokens

The words of a rule's text, each with the place where it starts. Main content: `Token.scan`, which
splits a text at its blank characters, and `adjacent`, the neighbouring pairs of a list.
-/

namespace PacketFilter

/-- A word of a text and the number of characters before it. -/
structure Token where
  text : String
  start : Nat
  deriving DecidableEq, Repr

namespace Token

/-- The token of a word that ends before position `finish`, its characters last first; none if it is empty. -/
def ofWord (finish : Nat) (word : List Char) : List Token :=
  if word.isEmpty then [] else [⟨String.ofList word.reverse, finish - word.length⟩]

/-- The tokens of the characters from `position` on, after the unfinished `word`. -/
def scanFrom (position : Nat) (word : List Char) : List Char → List Token
  | [] => ofWord position word
  | c :: cs =>
    if Text.isBlank c then ofWord position word ++ scanFrom (position + 1) [] cs
    else scanFrom (position + 1) (c :: word) cs

/-- The tokens of a text: its maximal runs of characters that are not blank. -/
def scan (text : String) : List Token := scanFrom 0 [] text.toList

/-- The words of a list of tokens. -/
def texts (tokens : List Token) : List String := tokens.map (·.text)

/-- Given words as the tokens of a text, one place after the other. -/
def ofTexts (words : List String) : List Token := words.zipIdx.map fun (text, start) => ⟨text, start⟩

/-- The part of `typed` from a token of it on, with its spacing. -/
def suffixOf (typed : String) (token : Token) : String := String.ofList (typed.toList.drop token.start)

@[simp] theorem texts_nil : texts [] = [] := rfl

@[simp] theorem texts_cons (token : Token) (tokens : List Token) :
    texts (token :: tokens) = token.text :: texts tokens := rfl

@[simp] theorem texts_append (left right : List Token) : texts (left ++ right) = texts left ++ texts right := by
  simp [texts]

@[simp] theorem texts_ofTexts (words : List String) : texts (ofTexts words) = words := by
  simp [texts, ofTexts, Function.comp_def]

end Token

/-- The pairs of neighbours in a list. -/
def adjacent {α : Type} (xs : List α) : List (α × α) := xs.zip xs.tail

end PacketFilter
