import PacketFilter.Text.Letters

/-!
# Tables, chains and slots

A table holds a fixed list of chains. A slot is a table together with one of its chains; rules are
stored by slot. Main statement: `Slot.of?_eq_some_iff`.
-/

namespace PacketFilter

/-- A rule table: for filtering packets, or for changing their addresses. -/
inductive Table where
  | filter
  | nat
  deriving DecidableEq, Repr

/-- A point that packets pass on their way. -/
inductive Chain where
  | input
  | output
  | forward
  | prerouting
  | postrouting
  deriving DecidableEq, Repr

/-- Every table, in the order in which tables are listed. -/
def Table.all : List Table := [filter, nat]

/-- The name of a table, as a rule writes it. -/
def Table.name : Table → String
  | filter => "FILTER"
  | nat => "NAT"

/-- The table of a name in any letter case. -/
def Table.ofName? (name : String) : Option Table :=
  Table.all.find? fun table => Text.equalIgnoringCase table.name name

/-- The chains of a table, in the order in which they are saved. -/
def Table.chains : Table → List Chain
  | filter => [.input, .forward]
  | nat => [.prerouting, .input, .postrouting]

/-- A table holds the chains of its list. -/
def Table.Holds (table : Table) (chain : Chain) : Prop := chain ∈ table.chains

instance (table : Table) (chain : Chain) : Decidable (table.Holds chain) :=
  inferInstanceAs (Decidable (chain ∈ table.chains))

namespace Chain

/-- Every chain, in the order in which chains are listed. -/
def all : List Chain := [input, output, forward, prerouting, postrouting]

/-- The name of a chain, as a rule writes it. -/
def name : Chain → String
  | input => "INPUT"
  | output => "OUTPUT"
  | forward => "FORWARD"
  | prerouting => "PREROUTING"
  | postrouting => "POSTROUTING"

/-- The chain of an exact name. -/
def ofName? (name : String) : Option Chain := all.find? fun chain => chain.name == name

/-- The tables that hold a chain. -/
def tables (chain : Chain) : List Table := Table.all.filter fun table => table.Holds chain

end Chain

/-- A table and a chain that it holds. -/
inductive Slot where
  | filterInput
  | filterForward
  | natPrerouting
  | natInput
  | natPostrouting
  deriving DecidableEq, Repr

namespace Slot

/-- Every slot, by table and then in the order of the table's chains. -/
def all : List Slot := [filterInput, filterForward, natPrerouting, natInput, natPostrouting]

/-- The table of a slot. -/
def table : Slot → Table
  | filterInput | filterForward => .filter
  | natPrerouting | natInput | natPostrouting => .nat

/-- The chain of a slot. -/
def chain : Slot → Chain
  | filterInput | natInput => .input
  | filterForward => .forward
  | natPrerouting => .prerouting
  | natPostrouting => .postrouting

/-- The name of the table and that of the chain, with a dot between. -/
def name (slot : Slot) : String := slot.table.name ++ "." ++ slot.chain.name

/-- The slot of a table and a chain, if the table holds the chain. -/
def of? (table : Table) (chain : Chain) : Option Slot :=
  all.find? fun slot => slot.table = table ∧ slot.chain = chain

theorem of?_eq_some_iff {table : Table} {chain : Chain} {slot : Slot} :
    of? table chain = some slot ↔ slot.table = table ∧ slot.chain = chain := by
  cases table <;> cases chain <;> cases slot <;> decide

theorem eq_of_table_of_chain {place slot : Slot} (table : place.table = slot.table) (chain : place.chain = slot.chain) :
    place = slot := by
  have named : of? slot.table slot.chain = some place := of?_eq_some_iff.2 ⟨table, chain⟩
  exact Option.some.inj (named.symm.trans (of?_eq_some_iff.2 ⟨rfl, rfl⟩))

theorem isSome_of?_iff {table : Table} {chain : Chain} : (of? table chain).isSome ↔ table.Holds chain := by
  cases table <;> cases chain <;> decide

theorem holds (slot : Slot) : slot.table.Holds slot.chain := by
  cases slot <;> decide

theorem all_eq_flatMap_chains :
    all.map (fun slot => (slot.table, slot.chain)) =
      Table.all.flatMap fun table => table.chains.map fun chain => (table, chain) := by
  decide

end Slot

end PacketFilter
