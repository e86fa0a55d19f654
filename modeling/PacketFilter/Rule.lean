import PacketFilter.Grammar.Outcome

/-!
# Rules

A rule is a text together with the elements recognized in it. Edits change the elements; the written
form of the rule is the one of its elements. Main content: `Rule.new`, `Rule.text`, the edits
`deleteElement?` and `setValue?`, and `Rule.run?`, the verdict on a packet.
-/

namespace PacketFilter

/-- A rule: its text, and the elements and the context recognized in it. -/
structure Rule where
  raw : String
  grammar : Grammar
  context : Context
  elements : List Element
  /-- The forms that could come next, as of the last match. -/
  possible : List String

namespace Rule

/-- The meanings of the elements, which make two rules the same. -/
def parts (rule : Rule) : List Part := PacketFilter.parts rule.elements

/-- The rule of a text. A text that is not blank is matched as far as possible and resolves the context; a
    preset chain that the preset table does not hold is dropped first. -/
def new (grammar : Grammar) (preset : Context) (raw : String) : Rule :=
  let context := preset.settled
  if Text.IsBlank raw then ⟨raw, grammar, context, [], []⟩
  else
    let outcome := grammar.parse context (Token.scan raw)
    ⟨raw, grammar, outcome.context, outcome.elements, outcome.suggestions⟩

/-- The slot in which a rule can be stored. -/
def slot? (rule : Rule) : Option Slot := rule.context.slot?

/-- The written form: the words of all elements, separated by single spaces. -/
def text (rule : Rule) : String := Text.joinWords (rule.parts.map Part.display)

/-- Matches the text of the rule again, from the context that it has resolved. -/
def parse? (rule : Rule) (bestEffort : Bool) : Option Outcome :=
  rule.grammar.parse? bestEffort rule.context (Token.scan rule.raw)

/-- The rule with its written form as its text. -/
def canonical (rule : Rule) : Rule := { rule with raw := rule.text }

/-- Whether the written form is a complete rule; it becomes the rule's text. -/
def checkTotal (rule : Rule) : Bool × Rule := ((rule.canonical.parse? false).isSome, rule.canonical)

/-- Whether anything is recognized in the written form; it becomes the rule's text, and what could follow it
    is noted. -/
def checkPartial (rule : Rule) : Bool × Rule :=
  match rule.canonical.parse? true with
  | some outcome => (!outcome.elements.isEmpty, { rule.canonical with possible := outcome.suggestions })
  | none => (false, rule.canonical)

/-- Removes the element at an index. -/
def deleteElement? (rule : Rule) (index : Nat) : Option Rule :=
  if index < rule.elements.length then some { rule with elements := rule.elements.eraseIdx index } else none

/-- Changes the value of the element at an index, if it has one that can change. -/
def setValue? (rule : Rule) (index : Nat) (value : String) : Option Rule := do
  let element ← rule.elements[index]?
  let changed ← element.setValue? value
  return { rule with elements := rule.elements.set index changed }

/-- The verdict of a rule on a packet. -/
def run? (rule : Rule) (packet : Packet) : Option Verdict := Part.run? rule.parts packet

/-- The part of a typed text from its first token on that the rule's grammar does not recognize. -/
def unrecognizedSuffix (rule : Rule) (typed : String) : String :=
  match (rule.grammar.choose rule.context (Token.scan typed)).walk.rest with
  | [] => ""
  | token :: _ => Token.suffixOf typed token

end Rule

/-- The first rule that decides on a packet, by its index, and its verdict. -/
def evaluate? (rules : List Rule) (packet : Packet) : Option (Nat × Verdict) :=
  rules.zipIdx.findSome? fun (rule, index) => (rule.run? packet).map fun verdict => (index, verdict)

end PacketFilter
