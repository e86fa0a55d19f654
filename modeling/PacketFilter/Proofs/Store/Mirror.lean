import Mathlib.Data.List.InsertIdx
import PacketFilter.Proofs.Store.Run

/-!
# Following the changes of a store

A listener that is told of every change, and looks up the rules that come in, can keep a copy of the rules of
every slot. Main statements: `follow_edits`, which follows one operation, and `follow_run`, which follows a run:
every change names a place that the copy has, and the copy is the store after every operation.
-/

namespace PacketFilter

/-! ## Carrying out changes -/

/-- The places that a kind of change can name among so many rules. -/
def ChangeKind.Fits (kind : ChangeKind) (index length : Nat) : Prop :=
  match kind with
  | .appended => index = length
  | .inserted => index ≤ length
  | .deleted => index < length

instance (kind : ChangeKind) (index length : Nat) : Decidable (kind.Fits index length) :=
  match kind with
  | .appended => inferInstanceAs (Decidable (_ = _))
  | .inserted => inferInstanceAs (Decidable (_ ≤ _))
  | .deleted => inferInstanceAs (Decidable (_ < _))

/-- Carries out a change on a copy of the rules; a rule that comes in is the one that the store holds there. None
    if the copy does not have the place, or the store does not. -/
def Change.follow? (change : Change) (store : Store) (copy : SlotMap (List Rule)) : Option (SlotMap (List Rule)) :=
  let rules := copy.get change.slot
  if change.kind.Fits change.index rules.length then
    match change.kind with
    | .deleted => some (copy.set change.slot (rules.eraseIdx change.index))
    | .appended | .inserted =>
      (store.rules change.slot)[change.index]?.map fun rule =>
        copy.set change.slot (rules.insertIdx change.index rule)
  else none

namespace Edit

/-- Carries out the changes of an edit, one after the other. -/
def follow? (edit : Edit) (copy : SlotMap (List Rule)) : Option (SlotMap (List Rule)) :=
  edit.changes.foldlM (fun copy change => change.follow? edit.store copy) copy

/-- Carries out edits, one after the other. -/
def followAll? (edits : List Edit) (copy : SlotMap (List Rule)) : Option (SlotMap (List Rule)) :=
  edits.foldlM (fun copy edit => edit.follow? copy) copy

end Edit

theorem follow?_deleted {slot : Slot} {index : Nat} {copy : SlotMap (List Rule)} (store : Store)
    (inside : index < (copy.get slot).length) :
    (Change.mk .deleted slot index).follow? store copy = some (copy.set slot ((copy.get slot).eraseIdx index)) :=
  if_pos inside

theorem follow?_added {kind : ChangeKind} {slot : Slot} {index : Nat} {copy : SlotMap (List Rule)} {store : Store}
    {rule : Rule} (adds : kind ≠ .deleted) (fits : kind.Fits index (copy.get slot).length)
    (found : (store.rules slot)[index]? = some rule) :
    (Change.mk kind slot index).follow? store copy =
      some (copy.set slot ((copy.get slot).insertIdx index rule)) := by
  unfold Change.follow?
  rw [if_pos fits]
  cases kind with
  | deleted => exact absurd rfl adds
  | _ => simp only [found, Option.map_some]

/-- A change leaves the other slots of a copy as they are. -/
theorem get_of_follow? {change : Change} {store : Store} {copy later : SlotMap (List Rule)}
    (done : change.follow? store copy = some later) {slot : Slot} (other : slot ≠ change.slot) :
    later.get slot = copy.get slot := by
  simp only [Change.follow?, Option.ite_none_right_eq_some] at done
  obtain ⟨-, done⟩ := done
  split at done
  · obtain rfl := Option.some.inj done
    exact copy.get_set_of_ne other _
  all_goals
    obtain ⟨rule, -, rfl⟩ := Option.map_eq_some_iff.1 done
    exact copy.get_set_of_ne other _

namespace Edit

theorem follow?_singleton (change : Change) (store : Store) (copy : SlotMap (List Rule)) :
    (Edit.mk store [change]).follow? copy = change.follow? store copy := by
  simp [follow?]

theorem get_of_changes {changes : List Change} {store : Store} {copy later : SlotMap (List Rule)}
    (done : changes.foldlM (fun copy change => change.follow? store copy) copy = some later) {slot : Slot}
    (others : ∀ change ∈ changes, slot ≠ change.slot) : later.get slot = copy.get slot := by
  induction changes generalizing copy with
  | nil =>
    obtain rfl : copy = later := Option.some.inj done
    rfl
  | cons change changes ih =>
    rw [List.foldlM_cons, Option.bind_eq_bind, Option.bind_eq_some_iff] at done
    obtain ⟨between, first, rest⟩ := done
    rw [ih rest fun other member => others other (by simp [member]), get_of_follow? first (others change (by simp))]

/-- Edits without a change in a slot leave the slot of a copy as it is. -/
theorem get_of_followAll? {edits : List Edit} {copy later : SlotMap (List Rule)}
    (done : followAll? edits copy = some later) {slot : Slot}
    (others : ∀ change ∈ edits.flatMap changes, slot ≠ change.slot) : later.get slot = copy.get slot := by
  induction edits generalizing copy with
  | nil =>
    obtain rfl : copy = later := Option.some.inj done
    rfl
  | cons edit edits ih =>
    rw [followAll?, List.foldlM_cons, Option.bind_eq_bind, Option.bind_eq_some_iff] at done
    obtain ⟨between, first, rest⟩ := done
    rw [List.flatMap_cons] at others
    rw [ih rest fun change member => others change (List.mem_append_right _ member),
      get_of_changes first fun change member => others change (List.mem_append_left _ member)]

end Edit

namespace Store

/-! ## Single edits -/

section

variable {store : Store} {table : Table} {chain : Chain} {index : Nat} {edit : Edit}

theorem follow?_append? {rule : Rule} (done : store.append? rule table chain = some edit) :
    edit.follow? store.slots = some edit.store.slots := by
  obtain ⟨slot, -, -, -, rfl⟩ := append?_eq_some_iff.1 done
  have found : ((store.setRules slot (store.rules slot ++ [rule])).rules slot)[(store.rules slot).length]? = some rule := by
    simp
  have fits : ChangeKind.appended.Fits (store.rules slot).length (store.slots.get slot).length := rfl
  rw [Edit.follow?_singleton, follow?_added (by decide) fits found]
  exact congrArg (fun rules => some (store.slots.set slot rules)) List.insertIdx_length_self

theorem follow?_insert? {rule : Rule} (done : store.insert? rule table chain index = some edit) :
    edit.follow? store.slots = some edit.store.slots := by
  obtain ⟨slot, -, -, -, bound, rfl⟩ := insert?_eq_some_iff.1 done
  have found : ((store.setRules slot ((store.rules slot).insertIdx index rule)).rules slot)[index]? = some rule := by
    simp [List.getElem?_insertIdx_self, bound]
  have fits : ChangeKind.inserted.Fits index (store.slots.get slot).length := bound
  rw [Edit.follow?_singleton, follow?_added (by decide) fits found]
  rfl

/-- An overwritten rule is taken out first, and the new one comes in at its place. -/
theorem follow?_overwrite? {rule : Rule} (done : store.overwrite? rule table chain index = some edit) :
    edit.follow? store.slots = some edit.store.slots := by
  obtain ⟨slot, -, -, -, bound, rfl⟩ := overwrite?_eq_some_iff.1 done
  have found : ((store.setRules slot ((store.rules slot).set index rule)).rules slot)[index]? = some rule := by
    simp [bound]
  have bound : index < (store.slots.get slot).length := bound
  have fits : ChangeKind.inserted.Fits index
      ((store.slots.set slot ((store.slots.get slot).eraseIdx index)).get slot).length := by
    rw [SlotMap.get_set_self, List.length_eraseIdx_of_lt bound]
    exact Nat.le_sub_one_of_lt bound
  have replaced : ((store.slots.get slot).eraseIdx index).insertIdx index rule = (store.rules slot).set index rule :=
    List.insertIdx_eraseIdx_self (Nat.ne_of_lt bound) rule
  rw [Edit.follow?, List.foldlM_cons, follow?_deleted _ bound, Option.bind_eq_bind, Option.bind_some, List.foldlM_cons,
    follow?_added (by decide) fits found, SlotMap.get_set_self, SlotMap.set_set, replaced]
  rfl

theorem follow?_delete? (done : store.delete? table chain index = some edit) :
    edit.follow? store.slots = some edit.store.slots := by
  obtain ⟨slot, -, -, bound, rfl⟩ := delete?_eq_some_iff.1 done
  rw [Edit.follow?_singleton, follow?_deleted _ bound]
  rfl

/-- Taking out all rules from the last to the first leaves none. -/
theorem follow_deletions (after : Store) {slot : Slot} {count : Nat} {copy : SlotMap (List Rule)}
    (all : (copy.get slot).length = count) :
    ((List.range count).reverse.map fun index => Change.mk .deleted slot index).foldlM
      (fun copy change => change.follow? after copy) copy = some (copy.set slot []) := by
  induction count generalizing copy with
  | zero =>
    have empty : copy.get slot = [] := List.length_eq_zero_iff.1 all
    rw [← empty, SlotMap.set_get]
    rfl
  | succ count ih =>
    have last : count < (copy.get slot).length := by omega
    have fewer : ((copy.set slot ((copy.get slot).eraseIdx count)).get slot).length = count := by
      rw [SlotMap.get_set_self, List.length_eraseIdx_of_lt last, all]
      rfl
    rw [List.range_succ, List.reverse_append, List.reverse_singleton, List.singleton_append, List.map_cons,
      List.foldlM_cons, follow?_deleted after last, Option.bind_eq_bind, Option.bind_some, ih fewer, SlotMap.set_set]

theorem follow?_flush (store : Store) (table : Table) (chain : Chain) :
    (store.flush table chain).follow? store.slots = some (store.flush table chain).store.slots := by
  unfold flush
  split
  · exact follow_deletions _ rfl
  · rfl

end

/-! ## Operations -/

/-- The edits that add the rules that were read, one by one. -/
def placings (store : Store) : List Staged → List Edit
  | [] => []
  | staged :: rest =>
    match store.place? staged with
    | some edit => edit :: edit.store.placings rest
    | none => store.placings rest

/-- The single edits that an operation consists of: a load adds its rules one by one. -/
def edits (store : Store) : Operation → List Edit
  | .load (.stream stream) =>
    match stageStream store.grammar stream with
    | .ok staged => store.placings staged
    | .error _ => []
  | operation => (store.perform? operation).toList

theorem changes_placings (store : Store) (staged : List Staged) :
    (store.placings staged).flatMap Edit.changes = (store.placeAll staged).changes := by
  induction staged generalizing store with
  | nil => rfl
  | cons first staged ih =>
    rw [placings, placeAll]
    cases store.place? first with
    | none => exact ih store
    | some edit => simp [ih edit.store]

theorem follow_placings (store : Store) (staged : List Staged) :
    Edit.followAll? (store.placings staged) store.slots = some (store.placeAll staged).store.slots := by
  induction staged generalizing store with
  | nil => rfl
  | cons first staged ih =>
    rw [placings, placeAll]
    cases placed : store.place? first with
    | none => exact ih store
    | some edit =>
      have own : edit.follow? store.slots = some edit.store.slots := by
        obtain ⟨slot, -, appended⟩ := Option.bind_eq_some_iff.1 placed
        exact follow?_append? appended
      rw [Edit.followAll?, List.foldlM_cons, own, Option.bind_eq_bind, Option.bind_some]
      exact ih edit.store

theorem followAll?_toList {store : Store} {edit? : Option Edit}
    (follows : ∀ edit, edit? = some edit → edit.follow? store.slots = some edit.store.slots) :
    Edit.followAll? edit?.toList store.slots = some (edit?.getD ⟨store, []⟩).store.slots := by
  cases edit? with
  | none => rfl
  | some edit => simp [Edit.followAll?, follows edit rfl]

/-- The edits of an operation lead a copy of the store to the store after the operation. -/
theorem follow_edits (store : Store) (operation : Operation) :
    Edit.followAll? (store.edits operation) store.slots = some (store.perform operation).store.slots := by
  cases operation with
  | append rule table chain => exact followAll?_toList fun edit => follow?_append?
  | insert rule table chain index => exact followAll?_toList fun edit => follow?_insert?
  | overwrite rule table chain index => exact followAll?_toList fun edit => follow?_overwrite?
  | update raw table chain index => exact followAll?_toList fun edit => follow?_overwrite?
  | delete table chain index => exact followAll?_toList fun edit => follow?_delete?
  | flush table chain =>
    refine @followAll?_toList store (some (store.flush table chain)) fun edit done => ?_
    obtain rfl : store.flush table chain = edit := Option.some.inj done
    exact follow?_flush store table chain
  | load origin =>
    cases origin with
    | missingFile => rfl
    | stream stream =>
      rw [edits, perform, perform?, load]
      cases stageStream store.grammar stream with
      | error error => rfl
      | ok staged => exact follow_placings store staged

/-- The changes that listeners are told are those of the edits. -/
theorem changes_edits (store : Store) (operation : Operation) :
    (store.edits operation).flatMap Edit.changes = (store.perform operation).changes := by
  have single (edit? : Option Edit) :
      edit?.toList.flatMap Edit.changes = (edit?.getD ⟨store, []⟩).changes := by
    cases edit? <;> simp
  cases operation with
  | load origin =>
    cases origin with
    | missingFile => rfl
    | stream stream =>
      rw [edits, perform, perform?, load]
      cases stageStream store.grammar stream with
      | error error => rfl
      | ok staged => exact changes_placings store staged
  | flush table chain => exact single (some (store.flush table chain))
  | _ => exact single _

/-! ## Frames -/

/-- The slots that an operation names; a load names those of the headers and the texts of its rules. -/
def Names (store : Store) (operation : Operation) (slot : Slot) : Prop :=
  match operation with
  | .append _ table chain | .insert _ table chain _ | .overwrite _ table chain _ | .update _ table chain _
  | .delete table chain _ | .flush table chain => Slot.of? table chain = some slot
  | .load (.stream stream) =>
    ∃ staged, stageStream store.grammar stream = .ok staged ∧ ∃ one ∈ staged, one.slot? = some slot
  | .load .missingFile => False

theorem mem_placings {store : Store} {staged : List Staged} {change : Change}
    (member : change ∈ (store.placeAll staged).changes) : ∃ one ∈ staged, one.slot? = some change.slot := by
  induction staged generalizing store with
  | nil => simp [placeAll] at member
  | cons first staged ih =>
    rw [placeAll, place?_eq] at member
    cases lands : first.landing? with
    | none =>
      simp only [lands, Option.map_none] at member
      obtain ⟨one, inside, slot⟩ := ih member
      exact ⟨one, List.mem_cons_of_mem _ inside, slot⟩
    | some place =>
      simp only [lands, Option.map_some, List.singleton_append, List.mem_cons] at member
      rcases member with rfl | later
      · exact ⟨first, List.mem_cons_self, (Option.filter_eq_some_iff.1 lands).1⟩
      · obtain ⟨one, inside, slot⟩ := ih later
        exact ⟨one, List.mem_cons_of_mem _ inside, slot⟩

/-- Every change is one of a slot that the operation names. -/
theorem names_of_mem_changes {store : Store} {operation : Operation} {change : Change}
    (member : change ∈ (store.perform operation).changes) : store.Names operation change.slot := by
  cases done : store.perform? operation with
  | none => simp [perform, done] at member
  | some edit =>
    rw [perform, done, Option.getD_some] at member
    cases operation with
    | append rule table chain =>
      obtain ⟨slot, -, table, chain, rfl⟩ := append?_eq_some_iff.1 done
      obtain rfl := List.mem_singleton.1 member
      exact Slot.of?_eq_some_iff.2 ⟨table, chain⟩
    | insert rule table chain index =>
      obtain ⟨slot, -, table, chain, -, rfl⟩ := insert?_eq_some_iff.1 done
      obtain rfl := List.mem_singleton.1 member
      exact Slot.of?_eq_some_iff.2 ⟨table, chain⟩
    | overwrite rule table chain index | update raw table chain index =>
      obtain ⟨slot, -, table, chain, -, rfl⟩ := overwrite?_eq_some_iff.1 done
      simp only [List.mem_cons, List.not_mem_nil, or_false] at member
      rcases member with rfl | rfl <;> exact Slot.of?_eq_some_iff.2 ⟨table, chain⟩
    | delete table chain index =>
      obtain ⟨slot, table, chain, -, rfl⟩ := delete?_eq_some_iff.1 done
      obtain rfl := List.mem_singleton.1 member
      exact Slot.of?_eq_some_iff.2 ⟨table, chain⟩
    | flush table chain =>
      obtain rfl : store.flush table chain = edit := Option.some.inj done
      unfold flush at member
      split at member
      · rename_i slot found
        obtain ⟨index, -, rfl⟩ := List.mem_map.1 member
        exact found
      · simp at member
    | load origin =>
      obtain ⟨loaded, read, rfl⟩ := perform?_load_eq_some done
      cases origin with
      | missingFile => cases read
      | stream stream =>
        rw [load] at read
        cases staging : stageStream store.grammar stream with
        | error error =>
          rw [staging] at read
          cases read
        | ok staged =>
          rw [staging] at read
          obtain rfl : store.placeAll staged = loaded := Except.ok.inj read
          exact ⟨staged, staging, mem_placings member⟩

/-- A slot that an operation does not name stays as it is. -/
theorem rules_of_not_names {store : Store} {operation : Operation} {slot : Slot} (other : ¬ store.Names operation slot) :
    (store.perform operation).store.rules slot = store.rules slot := by
  refine Edit.get_of_followAll? (store.follow_edits operation) fun change member same => other ?_
  rw [changes_edits] at member
  exact same ▸ names_of_mem_changes member

/-! ## Runs -/

/-- The store after operations, one after the other. -/
def run (store : Store) : List Operation → Store
  | [] => store
  | operation :: operations => (store.perform operation).store.run operations

/-- The single edits of operations, one after the other. -/
def history (store : Store) : List Operation → List Edit
  | [] => []
  | operation :: operations => store.edits operation ++ (store.perform operation).store.history operations

theorem follow_history (store : Store) (operations : List Operation) :
    Edit.followAll? (store.history operations) store.slots = some (store.run operations).slots := by
  induction operations generalizing store with
  | nil => rfl
  | cons operation operations ih =>
    have first := store.follow_edits operation
    rw [Edit.followAll?] at first
    rw [history, Edit.followAll?, List.foldlM_append, first, Option.bind_eq_bind, Option.bind_some]
    exact ih (store.perform operation).store

/-- A copy of a store that carries out every change of a run has the place of each, and is the store after the run.
    Each further operation tells the changes of its edits, leaves the slots alone that it does not name, and has
    no effect if it is rejected. -/
theorem follow_run (store : Store) (operations : List Operation) :
    Edit.followAll? (store.history operations) store.slots = some (store.run operations).slots ∧
      ∀ operation,
        let before := store.run operations
        let after := before.perform operation
        after.changes = (before.edits operation).flatMap Edit.changes ∧
        (∀ slot, ¬ before.Names operation slot → after.store.rules slot = before.rules slot) ∧
        (before.perform? operation = none → after = ⟨before, []⟩) := by
  refine ⟨store.follow_history operations, fun operation => ?_⟩
  intro before after
  refine ⟨(before.changes_edits operation).symm, fun slot other => rules_of_not_names other, fun rejected => ?_⟩
  show (before.perform? operation).getD ⟨before, []⟩ = _
  rw [rejected, Option.getD_none]

end Store

end PacketFilter
