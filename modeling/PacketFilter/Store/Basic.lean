import PacketFilter.Rule

/-!
# The rule store

The rules of every slot, in the order in which they are evaluated. An edit that names a place which the
store does not have, or a rule which does not belong there, is rejected. Main content: `Store` with its
edits, each of which returns the new store and the changes that its listeners are told.
-/

namespace PacketFilter

/-- A value for every slot. -/
structure SlotMap (α : Type) where
  filterInput : α
  filterForward : α
  natPrerouting : α
  natInput : α
  natPostrouting : α
  deriving DecidableEq

namespace SlotMap

variable {α : Type}

/-- The same value for every slot. -/
def const (value : α) : SlotMap α := ⟨value, value, value, value, value⟩

/-- The value of a slot. -/
def get (map : SlotMap α) : Slot → α
  | .filterInput => map.filterInput
  | .filterForward => map.filterForward
  | .natPrerouting => map.natPrerouting
  | .natInput => map.natInput
  | .natPostrouting => map.natPostrouting

/-- Sets the value of a slot. -/
def set (map : SlotMap α) (slot : Slot) (value : α) : SlotMap α :=
  match slot with
  | .filterInput => { map with filterInput := value }
  | .filterForward => { map with filterForward := value }
  | .natPrerouting => { map with natPrerouting := value }
  | .natInput => { map with natInput := value }
  | .natPostrouting => { map with natPostrouting := value }

@[simp] theorem get_const (value : α) (slot : Slot) : (const value).get slot = value := by cases slot <;> rfl

@[simp] theorem get_set_self (map : SlotMap α) (slot : Slot) (value : α) : (map.set slot value).get slot = value := by
  cases slot <;> rfl

theorem get_set_of_ne (map : SlotMap α) {slot other : Slot} (h : other ≠ slot) (value : α) :
    (map.set slot value).get other = map.get other := by
  cases slot <;> cases other <;> simp_all [get, set]

@[simp] theorem set_set (map : SlotMap α) (slot : Slot) (first second : α) :
    (map.set slot first).set slot second = map.set slot second := by
  cases slot <;> rfl

@[simp] theorem set_get (map : SlotMap α) (slot : Slot) : map.set slot (map.get slot) = map := by
  cases slot <;> rfl

end SlotMap

/-- What happened to a place of a slot. -/
inductive ChangeKind where
  | appended
  | inserted
  | deleted
  deriving DecidableEq, Repr

/-- What the listeners of a store are told. -/
structure Change where
  kind : ChangeKind
  slot : Slot
  index : Nat
  deriving DecidableEq, Repr

/-- The rules of every slot, the grammar they are matched with and the number of listeners. -/
structure Store where
  grammar : Grammar
  slots : SlotMap (List Rule)
  listeners : Nat

/-- The store after an edit, and the changes that make up the edit. -/
structure Edit where
  store : Store
  changes : List Change

/-- There is no rule at an index of a table and a chain. -/
structure NoRule where
  table : Table
  chain : Chain
  index : Nat
  deriving DecidableEq, Repr

/-- The error in words. -/
def NoRule.message (error : NoRule) : String :=
  "no rule at " ++ error.table.name ++ "." ++ error.chain.name ++ "[" ++ error.index.repr ++ "]"

/-- A rule belongs to a table and a chain when they are its own and the table holds the chain. -/
def Rule.Belongs (rule : Rule) (table : Table) (chain : Chain) : Prop :=
  rule.context = ⟨some table, some chain⟩ ∧ table.Holds chain

instance (rule : Rule) (table : Table) (chain : Chain) : Decidable (rule.Belongs table chain) :=
  inferInstanceAs (Decidable (_ ∧ _))

namespace Store

/-- The store without rules and listeners. -/
def new (grammar : Grammar) : Store := ⟨grammar, .const [], 0⟩

/-- Adds a listener. -/
def subscribe (store : Store) : Store := { store with listeners := store.listeners + 1 }

/-- The rules of a slot. -/
def rules (store : Store) (slot : Slot) : List Rule := store.slots.get slot

/-- The store with other rules in a slot. -/
def setRules (store : Store) (slot : Slot) (rules : List Rule) : Store :=
  { store with slots := store.slots.set slot rules }

/-- The rules of a chain in a table; none if the table does not hold the chain. -/
def rules? (store : Store) (table : Table) (chain : Chain) : Option (List Rule) :=
  (Slot.of? table chain).map store.rules

/-- The rule at an index of a chain. -/
def getRule (store : Store) (table : Table) (chain : Chain) (index : Nat) : Except NoRule Rule :=
  match (store.rules? table chain).bind fun rules => rules[index]? with
  | some rule => .ok rule
  | none => .error ⟨table, chain, index⟩

/-- The number of rules in all slots. -/
def size (store : Store) : Nat := (Slot.all.flatMap store.rules).length

/-- The rule of a text for a table and a chain. -/
def createRule (store : Store) (raw : String) (table : Table) (chain : Chain) : Rule :=
  Rule.new store.grammar ⟨some table, some chain⟩ raw

/-- The slot of a table and a chain, if a rule belongs there. -/
def slotFor? (rule : Rule) (table : Table) (chain : Chain) : Option Slot :=
  if rule.Belongs table chain then Slot.of? table chain else none

/-- Adds a rule after the last one of its chain. -/
def append? (store : Store) (rule : Rule) (table : Table) (chain : Chain) : Option Edit := do
  let slot ← slotFor? rule table chain
  let rules := store.rules slot
  return ⟨store.setRules slot (rules ++ [rule]), [⟨.appended, slot, rules.length⟩]⟩

/-- Adds a rule before an index, which may be the one after the last rule. -/
def insert? (store : Store) (rule : Rule) (table : Table) (chain : Chain) (index : Nat) : Option Edit := do
  let slot ← slotFor? rule table chain
  let rules := store.rules slot
  if index ≤ rules.length then
    some ⟨store.setRules slot (rules.insertIdx index rule), [⟨.inserted, slot, index⟩]⟩
  else none

/-- Replaces the rule at an index. -/
def overwrite? (store : Store) (rule : Rule) (table : Table) (chain : Chain) (index : Nat) : Option Edit := do
  let slot ← slotFor? rule table chain
  let rules := store.rules slot
  if index < rules.length then
    some ⟨store.setRules slot (rules.set index rule), [⟨.deleted, slot, index⟩, ⟨.inserted, slot, index⟩]⟩
  else none

/-- Replaces the rule at an index by the rule of a text. -/
def update? (store : Store) (raw : String) (table : Table) (chain : Chain) (index : Nat) : Option Edit :=
  store.overwrite? (store.createRule raw table chain) table chain index

/-- Removes the rule at an index. -/
def delete? (store : Store) (table : Table) (chain : Chain) (index : Nat) : Option Edit := do
  let slot ← Slot.of? table chain
  let rules := store.rules slot
  if index < rules.length then some ⟨store.setRules slot (rules.eraseIdx index), [⟨.deleted, slot, index⟩]⟩ else none

/-- Removes the rules of a chain, from the last one to the first. -/
def flush (store : Store) (table : Table) (chain : Chain) : Edit :=
  match Slot.of? table chain with
  | some slot =>
    ⟨store.setRules slot [], (List.range (store.rules slot).length).reverse.map fun index => ⟨.deleted, slot, index⟩⟩
  | none => ⟨store, []⟩

@[simp] theorem rules_setRules_self (store : Store) (slot : Slot) (rules : List Rule) :
    (store.setRules slot rules).rules slot = rules :=
  SlotMap.get_set_self store.slots slot rules

theorem rules_setRules_of_ne (store : Store) {slot other : Slot} (h : other ≠ slot) (rules : List Rule) :
    (store.setRules slot rules).rules other = store.rules other :=
  SlotMap.get_set_of_ne store.slots h rules

end Store

end PacketFilter
