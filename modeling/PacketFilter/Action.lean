import PacketFilter.Condition

/-!
# Actions and verdicts

What a rule does with a packet that satisfies its conditions. Main content: `Action.apply`.
-/

namespace PacketFilter

/-- The fate of a packet: it is discarded, or it goes on, perhaps changed. -/
inductive Verdict where
  | drop
  | forward (packet : Packet)
  deriving DecidableEq

/-- What to do with a packet; `nat` changes the address of a side. -/
inductive Action where
  | accept
  | drop
  | nat (side : Side)
  deriving DecidableEq, Repr

namespace Action

/-- The spellings of the flag in front of an action. -/
def jump : Spelling := ⟨"-j", ["--jump"]⟩

/-- Every action, in the order in which actions are proposed. -/
def all : List Action := [accept, drop, nat .source, nat .destination]

/-- The name of an action, as a rule writes it. -/
def name : Action → String
  | accept => "ACCEPT"
  | drop => "DROP"
  | nat .source => "SNAT"
  | nat .destination => "DNAT"

/-- The word between the name of an action and its target. -/
def option? : Action → Option String
  | accept | drop => none
  | nat .source => some "--to-source"
  | nat .destination => some "--to-destination"

/-- What an action does, in words. -/
def help : Action → String
  | accept => "Lets the packet through."
  | drop => "Silently discards the packet."
  | nat .source => "Rewrites the source address (and port)."
  | nat .destination => "Rewrites the destination address (and port)."

/-- The words that are written for an action before its target. -/
def keyword (action : Action) : List String := [jump.keyword, action.name] ++ action.option?.toList

/-- Sets the address of a side, and its port if the target has one and the packet's protocol has ports. -/
def redirect (side : Side) (target : Target) (packet : Packet) : Packet :=
  let addressed := packet.set "IP" side.addressField (.text target.address.text)
  match target.port?, packet.protocol? with
  | some port, some protocol =>
    if protocol.hasPorts then addressed.set protocol.layer side.portField (.int (.ofInt port.toNat)) else addressed
  | _, _ => addressed

/-- Applies an action; a packet whose target cannot be read goes on unchanged. -/
def apply (action : Action) (packet : Packet) (value : String) : Verdict :=
  match action with
  | accept => .forward packet
  | drop => .drop
  | nat side =>
    match Target.parse value with
    | .ok target => .forward (redirect side target packet)
    | .error _ => .forward packet

end Action

end PacketFilter
