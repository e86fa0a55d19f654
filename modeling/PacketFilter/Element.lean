import PacketFilter.Action
import PacketFilter.Table

/-!
# Elements of a rule

What the words of a rule are recognized as. A part is the meaning of an element, and two elements are
the same when their parts are; the spelling in which it was typed is kept beside it. Main content:
`Part.words`, the written form, and `Part.decide?`, which evaluates the parts of a rule.
-/

namespace PacketFilter

/-- How a rule is put into its chain. -/
inductive Command where
  | append
  | insert
  deriving DecidableEq, Repr

namespace Command

/-- Every command, in the order in which commands are proposed. -/
def all : List Command := [append, insert]

/-- The spellings of a command. -/
def spelling : Command → Spelling
  | append => ⟨"-A", ["--append"]⟩
  | insert => ⟨"-I", ["--insert"]⟩

/-- What a command does, in words. -/
def help : Command → String
  | append => "Append adds the rule to the end of the chain."
  | insert => "Insert places the rule at a given position in the chain."

end Command

/-- The spellings of the flag in front of a table. -/
def Table.flag : Spelling := ⟨"-t", ["--table"]⟩

/-- What it means for a rule to name a table, in words. -/
def Table.help : Table → String
  | filter => "The rule belongs to the FILTER table."
  | nat => "The rule belongs to the NAT (network address translation) table."

/-- Which packets pass a chain, in words. -/
def Chain.help : Chain → String
  | input => "Packets addressed to this host."
  | output => "Packets generated by this host."
  | forward => "Packets routed through this host."
  | prerouting => "Packets as they arrive, before the routing decision."
  | postrouting => "Packets about to leave, after the routing decision."

/-- What one element of a rule says. -/
inductive Part where
  | start (literal : String)
  | table (table : Table)
  | command (command : Command)
  | chain (chain : Chain)
  | condition (condition : Condition) (value? : Option String)
  | action (action : Action) (value? : Option String)
  deriving DecidableEq

namespace Part

/-- The fixed words of a part. -/
def keyword : Part → List String
  | start literal => [literal]
  | table _ => [Table.flag.keyword]
  | command c => [c.spelling.keyword]
  | chain _ => []
  | condition c _ => c.keyword
  | action a _ => a.keyword

/-- The value after the fixed words. -/
def value? : Part → Option String
  | start _ | command _ => none
  | table t => some t.name
  | chain c => some c.name
  | condition _ given? | action _ given? => given?

/-- The written form of a part: its fixed words, then its value. -/
def words (part : Part) : List String := part.keyword ++ part.value?.toList

/-- The written form as text. -/
def display (part : Part) : String := Text.joinWords part.words

/-- What a part says, in words. -/
def help : Part → String
  | start _ => "Invokes the packet filter administration tool."
  | table t => t.help
  | command c => c.help
  | chain c => c.help
  | condition c _ => c.help
  | action a _ => a.help

/-- Other spellings of the first of the fixed words. -/
def aliases : Part → List String
  | start _ | chain _ => []
  | table _ => Table.flag.aliases
  | command c => c.spelling.aliases
  | condition c _ => c.spelling.aliases
  | action _ _ => Action.jump.aliases

/-- The tables in which the chain of a part can stand. -/
def tables? : Part → Option (List Table)
  | chain c => some c.tables
  | _ => none

/-- Another value in the place of an old one; the table and the chain of a rule are fixed. -/
def setValue? (part : Part) (value : String) : Option Part :=
  match part with
  | condition c (some _) => some (.condition c (some value))
  | action a (some _) => some (.action a (some value))
  | _ => none

/-- Whether a part is a condition that the packet does not satisfy. -/
def fails (packet : Packet) : Part → Bool
  | condition c given? => !c.test packet (given?.getD "")
  | _ => false

/-- The last action of the parts, or else `last?`, unless a condition fails. -/
def decide? (packet : Packet) (last? : Option (Action × String)) : List Part → Option (Action × String)
  | [] => last?
  | condition c given? :: parts => if c.test packet (given?.getD "") then decide? packet last? parts else none
  | action a given? :: parts => decide? packet (some (a, given?.getD "")) parts
  | _ :: parts => decide? packet last? parts

/-- The verdict of the parts of a rule: none if a condition fails or there is no action. -/
def run? (parts : List Part) (packet : Packet) : Option Verdict :=
  (decide? packet none parts).map fun (last, value) => last.apply packet value

end Part

/-- A part of a rule and the words it was typed as, kept when they are not the written form. -/
structure Element where
  part : Part
  typed? : Option (List String)
  deriving DecidableEq

namespace Element

/-- The element of a part that was typed as the given words. -/
def ofTyped (part : Part) (typed : List String) : Element :=
  ⟨part, if typed = part.words then none else some typed⟩

/-- The element of a part in its written form. -/
def ofPart (part : Part) : Element := ⟨part, none⟩

/-- The words that an element was typed as. -/
def typed (element : Element) : List String := element.typed?.getD element.part.words

/-- Another value in the place of an old one; the typed form is forgotten. -/
def setValue? (element : Element) (value : String) : Option Element :=
  (element.part.setValue? value).map ofPart

@[simp] theorem part_ofTyped (part : Part) (typed : List String) : (ofTyped part typed).part = part := rfl

@[simp] theorem part_ofPart (part : Part) : (ofPart part).part = part := rfl

@[simp] theorem typed_ofTyped (part : Part) (typed : List String) : (ofTyped part typed).typed = typed := by
  by_cases same : typed = part.words <;> simp [ofTyped, Element.typed, same]

end Element

/-- The parts of a list of elements. -/
def parts (elements : List Element) : List Part := elements.map (·.part)

end PacketFilter
