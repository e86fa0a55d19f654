import PacketFilter.Proofs.Rule.Evaluation
import PacketFilter.Proofs.Store.Mirror

/-!
# Decisions after edits

The rules of a slot decide on a packet by the first of them that has a verdict. An edit puts a rule between others, or
takes one out, so the decision stays with the same rule, at the place where the edit has moved it, unless the edited
rule comes first. Main statements: `evaluate?_append_of_none`, by which rules before and after an edit are compared,
`isInserted_insertIdx`, `isDeleted_eraseIdx` and `Store.decide?_of_edits`.
-/

namespace PacketFilter

/-! ## Rules in two parts -/

section

variable {front back : List Rule} {packet : Packet}

theorem lt_of_evaluate? {rules : List Rule} {index : Nat} {verdict : Verdict}
    (decided : evaluate? rules packet = some (index, verdict)) : index < rules.length := by
  obtain ⟨rule, found, -⟩ := (evaluate?_eq_some_iff.1 decided).own
  exact (List.getElem?_eq_some_iff.1 found).1

/-- A decision of the rules in front stands, whatever is behind them. -/
theorem evaluate?_append_of_some {decision : Nat × Verdict} (decided : evaluate? front packet = some decision)
    (back : List Rule) : evaluate? (front ++ back) packet = some decision := by
  induction front generalizing decision with
  | nil => cases decided
  | cons rule front ih =>
    rw [evaluate?_cons] at decided
    rw [List.cons_append, evaluate?_cons]
    cases own : rule.run? packet with
    | some verdict =>
      rw [own] at decided
      exact decided
    | none =>
      rw [own] at decided
      obtain ⟨earlier, inside, rfl⟩ := Option.map_eq_some_iff.1 decided
      simp only [ih inside, Option.map_some]

/-- The decision of rules behind others, by its index among all of them. -/
def movedBy (count : Nat) (decision? : Option (Nat × Verdict)) : Option (Nat × Verdict) :=
  decision?.map fun (index, verdict) => (count + index, verdict)

theorem movedBy_eq_some_iff {count j : Nat} {decision? : Option (Nat × Verdict)} {verdict : Verdict} :
    movedBy count decision? = some (j, verdict) ↔ ∃ i, decision? = some (i, verdict) ∧ j = count + i := by
  rw [movedBy, Option.map_eq_some_iff]
  constructor
  · rintro ⟨⟨i, own⟩, decided, same⟩
    obtain ⟨rfl, rfl⟩ := Prod.mk.inj same
    exact ⟨i, decided, rfl⟩
  · rintro ⟨i, decided, rfl⟩
    exact ⟨(i, verdict), decided, rfl⟩

theorem movedBy_eq_none_iff {count : Nat} {decision? : Option (Nat × Verdict)} :
    movedBy count decision? = none ↔ decision? = none :=
  Option.map_eq_none_iff

/-- Rules in front that do not decide only move the places of those behind. -/
theorem evaluate?_append_of_none (silent : evaluate? front packet = none) (back : List Rule) :
    evaluate? (front ++ back) packet = movedBy front.length (evaluate? back packet) := by
  induction front with
  | nil => simp [movedBy]
  | cons rule front ih =>
    rw [evaluate?_cons] at silent
    rw [List.cons_append, evaluate?_cons]
    cases own : rule.run? packet with
    | some verdict => simp [own] at silent
    | none =>
      rw [own] at silent
      rw [ih (Option.map_eq_none_iff.1 silent)]
      simp [movedBy, Function.comp_def, Nat.add_right_comm]

theorem evaluate?_cons_of_some {rule : Rule} {verdict : Verdict} (own : rule.run? packet = some verdict) :
    evaluate? (rule :: back) packet = some (0, verdict) := by
  rw [evaluate?_cons, own]

theorem evaluate?_cons_of_none {rule : Rule} (silent : rule.run? packet = none) :
    evaluate? (rule :: back) packet = movedBy 1 (evaluate? back packet) := by
  simp [evaluate?_cons, silent, movedBy, Nat.add_comm]

end

/-! ## A rule comes in -/

/-- What becomes of a decision when a rule comes in at an index; `own?` is the verdict of this rule. -/
structure IsInserted (index : Nat) (own? : Option Verdict) (before after : Option (Nat × Verdict)) : Prop where
  /-- A rule in front of it keeps what it decides on. -/
  earlier : ∀ j verdict, before = some (j, verdict) → j < index → after = some (j, verdict)
  /-- Of the others the new rule decides on all that it can, -/
  own : (∀ j verdict, before = some (j, verdict) → index ≤ j) → ∀ verdict, own? = some verdict →
    after = some (index, verdict)
  /-- and the rest stays with the rules behind it, which have moved by one, -/
  later : own? = none → ∀ j verdict, before = some (j, verdict) → index ≤ j → after = some (j + 1, verdict)
  /-- or undecided. -/
  undecided : own? = none → before = none → after = none

theorem isInserted_between (front back : List Rule) (rule : Rule) (packet : Packet) :
    IsInserted front.length (rule.run? packet) (evaluate? (front ++ back) packet)
      (evaluate? (front ++ rule :: back) packet) := by
  cases first : evaluate? front packet with
  | some decision =>
    -- The rules in front decide before and after, so only the first case arises.
    obtain ⟨i, decided⟩ := decision
    have bound : i < front.length := lt_of_evaluate? first
    rw [evaluate?_append_of_some first, evaluate?_append_of_some first]
    constructor
    · rintro j verdict ⟨⟩ -
      rfl
    · intro beyond
      have := beyond i decided rfl
      omega
    · rintro - j verdict ⟨⟩ beyond
      omega
    · rintro - ⟨⟩
  | none =>
    rw [evaluate?_append_of_none first, evaluate?_append_of_none first]
    constructor
    · intro j verdict before inFront
      obtain ⟨i, -, rfl⟩ := movedBy_eq_some_iff.1 before
      omega
    · intro _ verdict own
      rw [evaluate?_cons_of_some own]
      rfl
    · intro silent j verdict before _
      obtain ⟨i, decided, rfl⟩ := movedBy_eq_some_iff.1 before
      rw [evaluate?_cons_of_none silent, decided]
      exact movedBy_eq_some_iff.2 ⟨i + 1, movedBy_eq_some_iff.2 ⟨i, rfl, Nat.add_comm i 1⟩, rfl⟩
    · intro silent before
      rw [evaluate?_cons_of_none silent, movedBy_eq_none_iff.1 before]
      rfl

theorem insertIdx_length_append (front back : List Rule) (rule : Rule) :
    (front ++ back).insertIdx front.length rule = front ++ rule :: back := by
  induction front with
  | nil => rfl
  | cons first front ih => exact congrArg (first :: ·) ih

theorem isInserted_insertIdx {rules : List Rule} {index : Nat} (inside : index ≤ rules.length) (rule : Rule)
    (packet : Packet) :
    IsInserted index (rule.run? packet) (evaluate? rules packet) (evaluate? (rules.insertIdx index rule) packet) := by
  have between := isInserted_between (rules.take index) (rules.drop index) rule packet
  rwa [← insertIdx_length_append, List.take_append_drop, List.length_take_of_le inside] at between

/-! ## A rule is taken out -/

/-- The first rule behind an index that has a verdict on the packet. -/
structure DecidesNext (rules : List Rule) (packet : Packet) (index next : Nat) (verdict : Verdict) : Prop where
  later : index < next
  own : ∃ rule, rules[next]? = some rule ∧ rule.run? packet = some verdict
  between : ∀ i, index < i → i < next → ∀ rule, rules[i]? = some rule → rule.run? packet = none

/-- What becomes of the decision of rules on a packet when the one at an index is taken out. -/
structure IsDeleted (rules : List Rule) (packet : Packet) (index : Nat) (after : Option (Nat × Verdict)) : Prop where
  earlier : ∀ j verdict, evaluate? rules packet = some (j, verdict) → j < index → after = some (j, verdict)
  /-- The rules behind it have moved by one. -/
  later : ∀ j verdict, evaluate? rules packet = some (j, verdict) → index < j → after = some (j - 1, verdict)
  undecided : evaluate? rules packet = none → after = none
  /-- What it decided on goes to the next rule that has a verdict. -/
  own : ∀ verdict, evaluate? rules packet = some (index, verdict) →
    ∀ j next, after = some (j, next) ↔ DecidesNext rules packet index (j + 1) next

theorem decidesNext_iff {front back : List Rule} {rule : Rule} {packet : Packet} {j : Nat} {verdict : Verdict} :
    DecidesNext (front ++ rule :: back) packet front.length (j + 1) verdict ↔
      ∃ i, Decides back packet i verdict ∧ j = front.length + i := by
  have place (i : Nat) : (front ++ rule :: back)[front.length + i + 1]? = back[i]? := by
    rw [List.getElem?_append_right (by omega), Nat.add_assoc, Nat.add_sub_cancel_left, List.getElem?_cons_succ]
  constructor
  · rintro ⟨later, own, between⟩
    obtain ⟨i, rfl⟩ : ∃ i, j = front.length + i := ⟨j - front.length, by omega⟩
    rw [place] at own
    refine ⟨i, ⟨own, fun k before other found => ?_⟩, rfl⟩
    exact between (front.length + k + 1) (by omega) (by omega) other (by rw [place, found])
  · rintro ⟨i, ⟨own, earlier⟩, rfl⟩
    rw [← place] at own
    refine ⟨by omega, own, fun k later before other found => ?_⟩
    obtain ⟨m, rfl⟩ : ∃ m, k = front.length + m + 1 := ⟨k - front.length - 1, by omega⟩
    rw [place] at found
    exact earlier m (by omega) other found

theorem isDeleted_between (front back : List Rule) (rule : Rule) (packet : Packet) :
    IsDeleted (front ++ rule :: back) packet front.length (evaluate? (front ++ back) packet) := by
  cases first : evaluate? front packet with
  | some decision =>
    obtain ⟨i, decided⟩ := decision
    have bound : i < front.length := lt_of_evaluate? first
    have before := evaluate?_append_of_some first (rule :: back)
    rw [evaluate?_append_of_some first]
    constructor
    · intro j verdict found _
      rw [← before, found]
    · intro j verdict found beyond
      obtain ⟨rfl, -⟩ := Prod.mk.inj (Option.some.inj (before.symm.trans found))
      omega
    · intro undecided
      rw [before] at undecided
      cases undecided
    · intro verdict found
      obtain ⟨rfl, -⟩ := Prod.mk.inj (Option.some.inj (before.symm.trans found))
      omega
  | none =>
    have before := evaluate?_append_of_none first (rule :: back)
    rw [evaluate?_append_of_none first]
    cases own : rule.run? packet with
    | some taken =>
      rw [evaluate?_cons_of_some own] at before
      constructor
      · intro j verdict found inFront
        obtain ⟨rfl, -⟩ := Prod.mk.inj (Option.some.inj (before.symm.trans found))
        omega
      · intro j verdict found beyond
        obtain ⟨rfl, -⟩ := Prod.mk.inj (Option.some.inj (before.symm.trans found))
        omega
      · intro undecided
        rw [before] at undecided
        cases undecided
      · intro verdict _ j next
        simp only [movedBy_eq_some_iff, decidesNext_iff, evaluate?_eq_some_iff]
    | none =>
      rw [evaluate?_cons_of_none own] at before
      constructor
      · intro j verdict found inFront
        obtain ⟨i, -, rfl⟩ := movedBy_eq_some_iff.1 (before.symm.trans found)
        omega
      · intro j verdict found beyond
        obtain ⟨i, moved, rfl⟩ := movedBy_eq_some_iff.1 (before.symm.trans found)
        obtain ⟨k, decided, rfl⟩ := movedBy_eq_some_iff.1 moved
        exact movedBy_eq_some_iff.2 ⟨k, decided, by omega⟩
      · intro undecided
        rw [before] at undecided
        exact movedBy_eq_none_iff.2 (movedBy_eq_none_iff.1 (movedBy_eq_none_iff.1 undecided))
      · intro verdict found
        obtain ⟨i, moved, same⟩ := movedBy_eq_some_iff.1 (before.symm.trans found)
        obtain ⟨k, -, rfl⟩ := movedBy_eq_some_iff.1 moved
        omega

theorem isDeleted_eraseIdx {rules : List Rule} {index : Nat} (inside : index < rules.length) (packet : Packet) :
    IsDeleted rules packet index (evaluate? (rules.eraseIdx index) packet) := by
  have between := isDeleted_between (rules.take index) (rules.drop (index + 1)) rules[index] packet
  rwa [← List.eraseIdx_eq_take_drop_succ, List.length_take_of_le (Nat.le_of_lt inside),
    List.getElem_cons_drop, List.take_append_drop] at between

namespace Store

/-! ## Edits -/

/-- The decision of the rules of a slot. -/
def decide? (store : Store) (slot : Slot) (packet : Packet) : Option (Nat × Verdict) :=
  evaluate? (store.rules slot) packet

theorem decide?_setRules (store : Store) (slot : Slot) (rules : List Rule) (packet : Packet) :
    (store.setRules slot rules).decide? slot packet = evaluate? rules packet := by
  rw [decide?, rules_setRules_self]

variable {store : Store} {slot : Slot} {packet : Packet} {edit : Edit}

theorem isInserted_insert? {rule : Rule} {index : Nat}
    (done : store.insert? rule slot.table slot.chain index = some edit) :
    IsInserted index (rule.run? packet) (store.decide? slot packet) (edit.store.decide? slot packet) := by
  obtain ⟨place, -, table, chain, inside, rfl⟩ := insert?_eq_some_iff.1 done
  obtain rfl : place = slot := Slot.eq_of_table_of_chain table chain
  rw [decide?_setRules]
  exact isInserted_insertIdx inside rule packet

theorem isInserted_append? {rule : Rule} (done : store.append? rule slot.table slot.chain = some edit) :
    IsInserted (store.rules slot).length (rule.run? packet) (store.decide? slot packet)
      (edit.store.decide? slot packet) := by
  obtain ⟨place, -, table, chain, rfl⟩ := append?_eq_some_iff.1 done
  obtain rfl : place = slot := Slot.eq_of_table_of_chain table chain
  rw [decide?_setRules, ← List.insertIdx_length_self]
  exact isInserted_insertIdx (Nat.le_refl _) rule packet

theorem isDeleted_delete? {index : Nat} (done : store.delete? slot.table slot.chain index = some edit) :
    IsDeleted (store.rules slot) packet index (edit.store.decide? slot packet) := by
  obtain ⟨place, table, chain, inside, rfl⟩ := delete?_eq_some_iff.1 done
  obtain rfl : place = slot := Slot.eq_of_table_of_chain table chain
  rw [decide?_setRules]
  exact isDeleted_eraseIdx inside packet

/-- A rule is overwritten as if it was taken out and the other one came in at its place. -/
theorem store_overwrite? {rule : Rule} {index : Nat}
    (done : store.overwrite? rule slot.table slot.chain index = some edit) :
    ∃ deleted inserted, store.delete? slot.table slot.chain index = some deleted ∧
      deleted.store.insert? rule slot.table slot.chain index = some inserted ∧ edit.store = inserted.store := by
  obtain ⟨place, context, table, chain, inside, rfl⟩ := overwrite?_eq_some_iff.1 done
  obtain rfl : place = slot := Slot.eq_of_table_of_chain table chain
  refine ⟨_, _, delete?_eq_some_iff.2 ⟨place, rfl, rfl, inside, rfl⟩,
    insert?_eq_some_iff.2 ⟨place, context, rfl, rfl, ?_, rfl⟩, ?_⟩
  · rw [rules_setRules_self, List.length_eraseIdx_of_lt inside]
    exact Nat.le_sub_one_of_lt inside
  · have replaced : ((store.rules place).eraseIdx index).insertIdx index rule = (store.rules place).set index rule :=
      List.insertIdx_eraseIdx_self (Nat.ne_of_lt inside) rule
    simp only [rules_setRules_self, replaced]
    simp [setRules]

/-- What edits of a slot do to its decisions, which they move with the rules; a rule is overwritten like one that is
    deleted with another one inserted at its place, and operations on other slots change no decision. -/
theorem decide?_of_edits (store : Store) (slot : Slot) (packet : Packet) :
    let before := store.decide? slot packet
    (∀ rule edit, store.append? rule slot.table slot.chain = some edit →
      IsInserted (store.rules slot).length (rule.run? packet) before (edit.store.decide? slot packet)) ∧
    (∀ rule index edit, store.insert? rule slot.table slot.chain index = some edit →
      IsInserted index (rule.run? packet) before (edit.store.decide? slot packet)) ∧
    (∀ index edit, store.delete? slot.table slot.chain index = some edit →
      IsDeleted (store.rules slot) packet index (edit.store.decide? slot packet)) ∧
    (∀ rule index edit, store.overwrite? rule slot.table slot.chain index = some edit →
      ∃ deleted inserted, store.delete? slot.table slot.chain index = some deleted ∧
        deleted.store.insert? rule slot.table slot.chain index = some inserted ∧
        edit.store.decide? slot packet = inserted.store.decide? slot packet) ∧
    ∀ operation, ¬ store.Names operation slot → (store.perform operation).store.decide? slot packet = before := by
  intro before
  refine ⟨fun rule edit => isInserted_append?, fun rule index edit => isInserted_insert?,
    fun index edit => isDeleted_delete?, fun rule index edit done => ?_, fun operation other => ?_⟩
  · obtain ⟨deleted, inserted, takesOut, comesIn, same⟩ := store_overwrite? done
    exact ⟨deleted, inserted, takesOut, comesIn, by rw [same]⟩
  · exact congrArg (evaluate? · packet) (rules_of_not_names other)

end Store

end PacketFilter
