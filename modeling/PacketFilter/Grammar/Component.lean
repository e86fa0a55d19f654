import PacketFilter.Grammar.Flag

/-!
# Components

The pieces that a rule is put together from: its first word, the table, the command, the chain and the
flags. The table and the chain resolve the context in which the pieces after them are matched. Main
content: `Component.fit?` and `Component.proposals?`.
-/

namespace PacketFilter

/-- The table and the chain of a rule, as far as they are known. -/
structure Context where
  table? : Option Table
  chain? : Option Chain
  deriving DecidableEq, Repr

namespace Context

/-- The context in which nothing is known. -/
def unknown : Context := ⟨none, none⟩

/-- The context of a slot. -/
def ofSlot (slot : Slot) : Context := ⟨some slot.table, some slot.chain⟩

/-- The slot of a context, if its table and its chain are known and the table holds the chain. -/
def slot? (context : Context) : Option Slot := do Slot.of? (← context.table?) (← context.chain?)

/-- The table and the chain exclude each other. -/
def Clashes (context : Context) : Prop :=
  ∃ table ∈ context.table?, ∃ chain ∈ context.chain?, ¬ table.Holds chain

instance (context : Context) : Decidable context.Clashes :=
  match context with
  | ⟨some table, some chain⟩ => decidable_of_iff (¬ table.Holds chain) (by simp [Clashes])
  | ⟨none, _⟩ => isFalse (by simp [Clashes])
  | ⟨some _, none⟩ => isFalse (by simp [Clashes])

/-- The context without a chain that its table does not hold. -/
def settled (context : Context) : Context := if context.Clashes then ⟨context.table?, none⟩ else context

end Context

namespace Grammar

/-- One piece of the form of a rule. -/
inductive Component where
  | start (literal : String)
  | table (tables : List Table)
  | command
  | chain
  | flags (flags : List Flag)

/-- A match of a component: what was recognized, the tokens left and the context from there on. -/
structure Match where
  elements : List Element
  rest : List Token
  context : Context

namespace Component

/-- The table that is in force after a table was named: one that is known already stays. -/
def named (table : Table) (context : Context) : Context := { context with table? := context.table?.or (some table) }

/-- A table flag and the name of one of the tables. -/
def tableFit? (tables : List Table) (context : Context) : List Token → Option Match
  | flag :: name :: rest =>
    if Table.flag.accepts flag.text then do
      let table ← Table.ofName? name.text
      if table ∈ tables then
        some ⟨[.ofTyped (.table table) [flag.text, name.text]], rest, named table context⟩
      else none
    else none
  | _ => none

/-- One of the commands. -/
def commandFit? (context : Context) : List Token → Option Match
  | word :: rest => do
    let command ← Command.all.find? fun command => command.spelling.accepts word.text
    return ⟨[.ofTyped (.command command) [word.text]], rest, context⟩
  | [] => none

/-- The name of a chain that the table of the context holds. -/
def chainFit? (context : Context) : List Token → Option Match
  | word :: rest => do
    let chain ← Chain.ofName? word.text
    let table ← context.table?
    if table.Holds chain then some ⟨[.ofPart (.chain chain)], rest, { context with chain? := some chain }⟩ else none
  | [] => none

/-- Matches a component at the front of the tokens. -/
def fit? (component : Component) (context : Context) (tokens : List Token) : Option Match :=
  match component, tokens with
  | start literal, word :: rest =>
    if word.text = literal then some ⟨[.ofPart (.start literal)], rest, context⟩ else none
  | start _, [] => none
  | table tables, _ => tableFit? tables context tokens
  | command, _ => commandFit? context tokens
  | chain, _ => chainFit? context tokens
  | flags options, _ => (Flag.scan options tokens).fit?.map fun fit => ⟨fit.elements, fit.rest, context⟩

/-! ## Proposing components -/

/-- Whether a part names the table. -/
def isTable : Part → Bool
  | .table _ => true
  | _ => false

/-- Whether a part is the command. -/
def isCommand : Part → Bool
  | .command _ => true
  | _ => false

/-- Whether a part names the chain. -/
def isChain : Part → Bool
  | .chain _ => true
  | _ => false

/-- The chains that a context admits: those of its table, or all if it has none. -/
def openChains (context : Context) : List Chain :=
  Chain.all.filter fun chain => context.table?.all fun table => table.Holds chain

/-- The forms that a component can have after the matched parts; none if it cannot follow any more. -/
def proposals? (component : Component) (matched : List Part) (context : Context) : Option (List String) :=
  match component with
  | start literal => if matched.isEmpty then some [literal] else none
  | table tables =>
    if matched.any isTable then none else some (tables.map fun table => Text.joinWords (Part.table table).words)
  | command => if matched.any isCommand then none else some (Command.all.map fun command => command.spelling.keyword)
  | chain => if matched.any isChain then none else some ((openChains context).map Chain.name)
  | flags options =>
    match Flag.allProposals matched options with
    | [] => none
    | forms => some forms

end Component

end Grammar

end PacketFilter
