import PacketFilter.Log.Event

/-!
# Events of a rule

The events of matching a rule's text and of running a rule on a packet, in the order in which they occur.
-/

namespace PacketFilter.Log

/-! ## Matching -/

/-- A preset chain that the preset table does not hold is noted. -/
def preset (context : Context) : List Event :=
  match context with
  | ⟨some table, some chain⟩ => if table.Holds chain then [] else [.presetDropped table chain]
  | _ => []

/-- An outcome that is not complete is noted. -/
def outcome (raw : String) : Option Outcome → List Event
  | some outcome =>
    if outcome.complete then [] else [.partialMatch raw outcome.elements.length outcome.leftover.length]
  | none => []

/-- The events of `Rule.parse?`. -/
def parse (rule : Rule) (bestEffort : Bool) : List Event := outcome rule.raw (rule.parse? bestEffort)

/-- The events of `Rule.new`. -/
def newRule (grammar : Grammar) (context : Context) (raw : String) : List Event :=
  preset context ++
    if Text.IsBlank raw then [] else outcome raw (some (grammar.parse context.settled (Token.scan raw)))

/-- The events of `Rule.checkTotal`. -/
def checkTotal (rule : Rule) : List Event := parse rule.canonical false

/-- The events of `Rule.checkPartial`. -/
def checkPartial (rule : Rule) : List Event := parse rule.canonical true

/-! ## Running -/

/-- The events of `Action.apply`: a target that cannot be read is noted. -/
def apply (action : Action) (value : String) : List Event :=
  match action with
  | .nat _ =>
    match Target.parse value with
    | .ok _ => []
    | .error error => [.targetNotApplied error]
  | _ => []

/-- The events of `Part.run?`: the first condition that fails is noted. -/
def runParts (parts : List Part) (packet : Packet) : List Event :=
  match parts.find? (Part.fails packet) with
  | some part => [.conditionFailed part.display]
  | none =>
    match Part.decide? packet none parts with
    | some (action, value) => apply action value
    | none => []

/-- The events of `Rule.run?`. -/
def run (rule : Rule) (packet : Packet) : List Event := runParts rule.parts packet

/-- The events of `evaluate?`: rules are run up to the first one that decides. -/
def evaluate (packet : Packet) : List Rule → List Event
  | [] => []
  | rule :: rules => run rule packet ++ if (rule.run? packet).isSome then [] else evaluate packet rules

end PacketFilter.Log
