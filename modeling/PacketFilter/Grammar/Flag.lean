import PacketFilter.Grammar.Greedy

/-!
# Flags

The optional flags of a rule. Most flags stand in front of the tokens that are left; a port may stand
anywhere among them, and belongs to the protocol selected before it. Main content: `Flag.fit?`, which
recognizes one flag, `Flag.scan`, which recognizes any number of them in any order, and
`Flag.proposals`, the forms that can still follow.
-/

namespace PacketFilter.Grammar

/-- A flag that a rule can have; a protocol has options of its own. -/
inductive Flag where
  | protocol (protocol : Protocol) (options : List Flag)
  | port (side : Side) (protocol : Protocol)
  | address (side : Side)
  | interface (direction : Direction)
  | state
  | jump

namespace Flag

/-- Induction over flags: the options of a protocol come before it. -/
theorem induction {motive : Flag → Prop}
    (protocol : ∀ p options, (∀ option ∈ options, motive option) → motive (.protocol p options))
    (port : ∀ side p, motive (.port side p)) (address : ∀ side, motive (.address side))
    (interface : ∀ direction, motive (.interface direction)) (state : motive .state) (jump : motive .jump) :
    ∀ flag, motive flag
  | .protocol p options =>
    protocol p options fun option _ => induction protocol port address interface state jump option
  | .port side p => port side p
  | .address side => address side
  | .interface direction => interface direction
  | .state => state
  | .jump => jump

/-- The flag of a protocol, with its two ports as options if it has ports. -/
def ofProtocol (protocol : Protocol) : Flag :=
  .protocol protocol (if protocol.hasPorts then [.port .source protocol, .port .destination protocol] else [])

/-- The condition that a flag stands for; the jump stands for an action instead. -/
def condition? : Flag → Option Condition
  | protocol p _ => some (.protocol p)
  | port side p => some (.port side p)
  | address side => some (.address side)
  | interface direction => some (.interface direction)
  | state => some .state
  | jump => none

/-! ## Recognizing one flag -/

/-- A condition at the front: its flag, then a value that it accepts. -/
def valueFit? (condition : Condition) : Recognizer
  | flag :: value :: rest =>
    if condition.spelling.accepts flag.text && condition.accepts value.text then
      some ⟨[.ofTyped (.condition condition (some value.text)) [flag.text, value.text]], rest⟩
    else none
  | _ => none

/-- The first two neighbours of which the first one satisfies `p`, with the tokens around them. -/
def pairAt? (p : Token → Bool) : List Token → Option (List Token × Token × Token × List Token)
  | first :: second :: rest =>
    if p first then some ([], first, second, rest)
    else (pairAt? p (second :: rest)).map fun (front, found, next, back) => (first :: front, found, next, back)
  | _ => none

/-- A port anywhere among the tokens: the first occurrence of its flag decides, and a number has to follow. -/
def portFit? (side : Side) (protocol : Protocol) (tokens : List Token) : Option Fit := do
  let condition := Condition.port side protocol
  let (front, flag, value, back) ← pairAt? (fun token => condition.spelling.accepts token.text) tokens
  let port ← Literal.port? value.text.toList
  return ⟨[.ofTyped (.condition condition (some port.toNat.repr)) [flag.text, value.text]], front ++ back⟩

/-- A protocol at the front; its options are matched up to the next token that selects a protocol. -/
def protocolFit? (protocol : Protocol) (options : List Recognizer) : Recognizer
  | flag :: name :: rest =>
    if Protocol.flag.accepts flag.text && protocol.isNamed name.text then
      let inScope := fun token : Token => !Protocol.flag.accepts token.text
      let scan := greedy id options (rest.takeWhile inScope)
      some ⟨.ofTyped (.condition (.protocol protocol) none) [flag.text, name.text] :: scan.elements,
        scan.rest ++ rest.dropWhile inScope⟩
    else none
  | _ => none

/-- The action whose option, if it has one, and target stand in front of the tokens after its name. -/
def actionFit? (action : Action) (flag name : Token) (tokens : List Token) : Option Fit :=
  match action.option? with
  | none => some ⟨[.ofTyped (.action action none) [flag.text, name.text]], tokens⟩
  | some word =>
    match tokens with
    | option :: value :: rest =>
      if option.text == word && Target.isLiteral value.text then
        some ⟨[.ofTyped (.action action (some value.text)) [flag.text, name.text, option.text, value.text]], rest⟩
      else none
    | _ => none

/-- A jump at the front: its flag, the name of an action and what the action needs. -/
def jumpFit? : Recognizer
  | flag :: name :: rest =>
    if Action.jump.accepts flag.text then do
      let action ← Action.all.find? fun action => action.name == name.text
      actionFit? action flag name rest
    else none
  | _ => none

mutual

/-- Recognizes a flag. -/
def fit? : Flag → Recognizer
  | protocol p options => protocolFit? p (recognizers options)
  | port side p => portFit? side p
  | address side => valueFit? (.address side)
  | interface direction => valueFit? (.interface direction)
  | state => valueFit? .state
  | jump => jumpFit?

/-- The recognizers of a list of flags. -/
def recognizers : List Flag → List Recognizer
  | [] => []
  | flag :: flags => fit? flag :: recognizers flags

end

theorem recognizers_eq_map (flags : List Flag) : recognizers flags = flags.map fit? := by
  induction flags with
  | nil => rfl
  | cons flag flags ih => rw [recognizers, ih, List.map_cons]

/-! ## Recognizing flags in any order -/

/-- Recognizes the flags of a rule, each at most once. -/
def scan (flags : List Flag) (tokens : List Token) : Scan Flag := greedy fit? flags tokens

/-! ## Proposing flags -/

/-- Whether an element of this meaning comes from the flag. -/
def produces (flag : Flag) (part : Part) : Bool :=
  match flag.condition?, part with
  | some c, .condition d _ => c == d
  | none, .action _ _ => true
  | _, _ => false

/-- The leading words of the forms that a flag has. -/
def forms (flag : Flag) : List String :=
  match flag.condition? with
  | some c => [Text.joinWords c.keyword]
  | none => Action.all.map fun action => Text.joinWords action.keyword

mutual

/-- The forms that a flag can still add to the matched parts. -/
def proposals (matched : List Part) : Flag → List String
  | protocol p options =>
    if matched.any (produces (protocol p options)) then allProposals matched options
    else forms (protocol p options)
  | flag => if matched.any flag.produces then [] else flag.forms

/-- The forms that a list of flags can still add to the matched parts. -/
def allProposals (matched : List Part) : List Flag → List String
  | [] => []
  | flag :: flags => proposals matched flag ++ allProposals matched flags

end

end Flag

end PacketFilter.Grammar
