import PacketFilter.Grammar.Signature

/-!
# Choosing a signature

Every signature of a grammar is tried on the tokens of a rule. The first complete match wins; if there
is none, the first of those that recognize most. Main content: `Grammar.choose` and `Grammar.parse?`.
-/

namespace PacketFilter

namespace Grammar

/-- What a signature makes of the tokens of a rule. -/
structure Attempt where
  signature : Signature
  walk : Walk

namespace Attempt

/-- An attempt is complete when its walk is. -/
def IsComplete (attempt : Attempt) : Prop := attempt.signature.IsComplete attempt.walk

instance (attempt : Attempt) : Decidable attempt.IsComplete := inferInstanceAs (Decidable (_ ∧ _))

/-- The number of elements that an attempt recognizes. -/
def recovered (attempt : Attempt) : Nat := attempt.walk.elements.length

/-- The first of the attempts that recognize most, against `best`, which comes before them. -/
def longest (best : Attempt) : List Attempt → Attempt
  | [] => best
  | attempt :: attempts => longest (if best.recovered < attempt.recovered then attempt else best) attempts

end Attempt

/-- The attempt of one signature. -/
def attempt (context : Context) (tokens : List Token) (signature : Signature) : Attempt :=
  ⟨signature, signature.walk context tokens⟩

/-- The attempts of all signatures. -/
def attempts (grammar : Grammar) (context : Context) (tokens : List Token) : List Attempt :=
  grammar.signatures.map (attempt context tokens)

/-- The attempt that counts: the first complete one, or else the longest. -/
def choose (grammar : Grammar) (context : Context) (tokens : List Token) : Attempt :=
  match (grammar.attempts context tokens).find? fun attempt => attempt.IsComplete with
  | some attempt => attempt
  | none => (attempt context tokens grammar.first).longest (grammar.others.map (attempt context tokens))

end Grammar

/-- What a rule's text was recognized as. -/
structure Outcome where
  elements : List Element
  /-- The tokens that belong to no element, in their order. -/
  leftover : List Token
  /-- The forms that could come next; none for a complete match. -/
  suggestions : List String
  /-- The table and the chain as the match resolved them. -/
  context : Context
  complete : Bool

namespace Outcome

/-- The outcome of an attempt. -/
def ofAttempt (attempt : Grammar.Attempt) : Outcome where
  elements := attempt.walk.elements
  leftover := attempt.walk.rest
  suggestions := if attempt.IsComplete then [] else attempt.signature.suggestions attempt.walk
  context := attempt.walk.context
  complete := attempt.IsComplete

/-- Two outcomes agree when they differ at most in typed forms and in the places of tokens. -/
def Agree (a b : Outcome) : Prop :=
  parts a.elements = parts b.elements ∧ Token.texts a.leftover = Token.texts b.leftover ∧
    a.suggestions = b.suggestions ∧ a.context = b.context ∧ a.complete = b.complete

instance (a b : Outcome) : Decidable (a.Agree b) := inferInstanceAs (Decidable (_ ∧ _))

end Outcome

namespace Grammar

/-- Matches tokens against the grammar as far as possible. -/
def parse (grammar : Grammar) (context : Context) (tokens : List Token) : Outcome :=
  .ofAttempt (grammar.choose context tokens)

/-- Matches tokens against the grammar; without `bestEffort` only a complete match counts. -/
def parse? (grammar : Grammar) (bestEffort : Bool) (context : Context) (tokens : List Token) : Option Outcome :=
  let outcome := grammar.parse context tokens
  if bestEffort || outcome.complete then some outcome else none

end Grammar

end PacketFilter
