import PacketFilter.Store.Saved

/-!
# Runs of a store

A store changes by operations, one after the other. An operation that is rejected, or that fails, leaves the
store as it is. Main statements: `mem_rules_perform`, where the rules of a store come from after an
operation, and `Reached.admitted`, what is known of every rule of a store that a run reaches.
-/

namespace PacketFilter

/-- A rule belongs to the slot that its context names. -/
theorem Store.slotFor?_eq_some_iff {rule : Rule} {table : Table} {chain : Chain} {slot : Slot} :
    Store.slotFor? rule table chain = some slot ↔
      rule.context = .ofSlot slot ∧ slot.table = table ∧ slot.chain = chain := by
  rw [Store.slotFor?, Option.ite_none_right_eq_some, Slot.of?_eq_some_iff]
  constructor
  · rintro ⟨⟨context, -⟩, rfl, rfl⟩
    exact ⟨context, rfl, rfl⟩
  · rintro ⟨context, rfl, rfl⟩
    exact ⟨⟨context, slot.holds⟩, rfl, rfl⟩

/-- What can be done with a store. -/
inductive Operation where
  | append (rule : Rule) (table : Table) (chain : Chain)
  | insert (rule : Rule) (table : Table) (chain : Chain) (index : Nat)
  | overwrite (rule : Rule) (table : Table) (chain : Chain) (index : Nat)
  | update (raw : String) (table : Table) (chain : Chain) (index : Nat)
  | delete (table : Table) (chain : Chain) (index : Nat)
  | flush (table : Table) (chain : Chain)
  | load (origin : Origin)

/-- The rule that an operation is given. -/
def Operation.rule? : Operation → Option Rule
  | append rule _ _ | insert rule _ _ _ | overwrite rule _ _ _ => some rule
  | update _ _ _ _ | delete _ _ _ | flush _ _ | load _ => none

namespace Store

/-- The edit that an operation makes, if it is not rejected and does not fail. -/
def perform? (store : Store) : Operation → Option Edit
  | .append rule table chain => store.append? rule table chain
  | .insert rule table chain index => store.insert? rule table chain index
  | .overwrite rule table chain index => store.overwrite? rule table chain index
  | .update raw table chain index => store.update? raw table chain index
  | .delete table chain index => store.delete? table chain index
  | .flush table chain => some (store.flush table chain)
  | .load origin =>
    match store.load origin with
    | .ok loaded => some ⟨loaded.store, loaded.changes⟩
    | .error _ => none

/-- The store after an operation, and the changes that its listeners are told. -/
def perform (store : Store) (operation : Operation) : Edit := (store.perform? operation).getD ⟨store, []⟩

/-- The stores that operations lead to from the one without rules; the rules that they are given are admitted. -/
inductive Reached (admits : Rule → Prop) (grammar : Grammar) : Store → Prop where
  | new : Reached admits grammar (new grammar)
  | step {store : Store} {operation : Operation} (before : Reached admits grammar store)
      (admitted : ∀ rule ∈ operation.rule?, admits rule) :
      Reached admits grammar (store.perform operation).store

theorem Reached.append {admits : Rule → Prop} {grammar : Grammar} {store : Store}
    (before : Reached admits grammar store) {rule : Rule} (admitted : admits rule) (table : Table) (chain : Chain) :
    Reached admits grammar (store.perform (.append rule table chain)).store :=
  before.step fun _ given => Option.some.inj given ▸ admitted

/-! ## Single edits -/

theorem append?_eq_some_iff {store : Store} {rule : Rule} {table : Table} {chain : Chain} {edit : Edit} :
    store.append? rule table chain = some edit ↔
      ∃ slot, rule.context = .ofSlot slot ∧ slot.table = table ∧ slot.chain = chain ∧
        Edit.mk (store.setRules slot (store.rules slot ++ [rule])) [⟨.appended, slot, (store.rules slot).length⟩] = edit := by
  simp only [append?, Option.bind_eq_bind, Option.bind_eq_some_iff, slotFor?_eq_some_iff, Option.pure_def,
    Option.some.injEq, and_assoc]

theorem insert?_eq_some_iff {store : Store} {rule : Rule} {table : Table} {chain : Chain} {index : Nat} {edit : Edit} :
    store.insert? rule table chain index = some edit ↔
      ∃ slot, rule.context = .ofSlot slot ∧ slot.table = table ∧ slot.chain = chain ∧
        index ≤ (store.rules slot).length ∧
        Edit.mk (store.setRules slot ((store.rules slot).insertIdx index rule)) [⟨.inserted, slot, index⟩] = edit := by
  simp only [insert?, Option.bind_eq_bind, Option.bind_eq_some_iff, slotFor?_eq_some_iff,
    Option.ite_none_right_eq_some, Option.some.injEq, and_assoc]

theorem overwrite?_eq_some_iff {store : Store} {rule : Rule} {table : Table} {chain : Chain} {index : Nat}
    {edit : Edit} :
    store.overwrite? rule table chain index = some edit ↔
      ∃ slot, rule.context = .ofSlot slot ∧ slot.table = table ∧ slot.chain = chain ∧
        index < (store.rules slot).length ∧
        Edit.mk (store.setRules slot ((store.rules slot).set index rule))
          [⟨.deleted, slot, index⟩, ⟨.inserted, slot, index⟩] = edit := by
  simp only [overwrite?, Option.bind_eq_bind, Option.bind_eq_some_iff, slotFor?_eq_some_iff,
    Option.ite_none_right_eq_some, Option.some.injEq, and_assoc]

theorem delete?_eq_some_iff {store : Store} {table : Table} {chain : Chain} {index : Nat} {edit : Edit} :
    store.delete? table chain index = some edit ↔
      ∃ slot, slot.table = table ∧ slot.chain = chain ∧ index < (store.rules slot).length ∧
        Edit.mk (store.setRules slot ((store.rules slot).eraseIdx index)) [⟨.deleted, slot, index⟩] = edit := by
  simp only [delete?, Option.bind_eq_bind, Option.bind_eq_some_iff, Slot.of?_eq_some_iff,
    Option.ite_none_right_eq_some, Option.some.injEq, and_assoc]

/-! ## Where rules come from -/

/-- An edit changes one slot, where each rule was before or is a new one that belongs there. -/
def Puts (store : Store) (new? : Option Rule) (edit : Edit) : Prop :=
  ∃ slot rules, edit.store = store.setRules slot rules ∧
    ∀ rule ∈ rules, rule ∈ store.rules slot ∨ rule ∈ new? ∧ rule.context = .ofSlot slot

theorem Puts.grammar_eq {store : Store} {new? : Option Rule} {edit : Edit} (h : store.Puts new? edit) :
    edit.store.grammar = store.grammar := by
  obtain ⟨slot, rules, same, -⟩ := h
  rw [same]
  rfl

theorem Puts.mem_rules {store : Store} {new? : Option Rule} {edit : Edit} (h : store.Puts new? edit) {slot : Slot}
    {rule : Rule} (member : rule ∈ edit.store.rules slot) :
    rule ∈ store.rules slot ∨ rule ∈ new? ∧ rule.context = .ofSlot slot := by
  obtain ⟨place, rules, same, all⟩ := h
  rw [same] at member
  by_cases own : slot = place
  · subst own
    rw [rules_setRules_self] at member
    exact all rule member
  · rw [rules_setRules_of_ne store own] at member
    exact .inl member

theorem puts_append? {store : Store} {rule : Rule} {table : Table} {chain : Chain} {edit : Edit}
    (done : store.append? rule table chain = some edit) : store.Puts (some rule) edit := by
  obtain ⟨slot, context, -, -, rfl⟩ := append?_eq_some_iff.1 done
  refine ⟨slot, _, rfl, fun other member => ?_⟩
  rcases List.mem_append.1 member with before | added
  · exact .inl before
  · obtain rfl := List.mem_singleton.1 added
    exact .inr ⟨rfl, context⟩

theorem puts_insert? {store : Store} {rule : Rule} {table : Table} {chain : Chain} {index : Nat} {edit : Edit}
    (done : store.insert? rule table chain index = some edit) : store.Puts (some rule) edit := by
  obtain ⟨slot, context, -, -, bound, rfl⟩ := insert?_eq_some_iff.1 done
  refine ⟨slot, _, rfl, fun other member => ?_⟩
  rcases (List.mem_insertIdx bound).1 member with rfl | before
  · exact .inr ⟨rfl, context⟩
  · exact .inl before

theorem puts_overwrite? {store : Store} {rule : Rule} {table : Table} {chain : Chain} {index : Nat} {edit : Edit}
    (done : store.overwrite? rule table chain index = some edit) : store.Puts (some rule) edit := by
  obtain ⟨slot, context, -, -, -, rfl⟩ := overwrite?_eq_some_iff.1 done
  refine ⟨slot, _, rfl, fun other member => ?_⟩
  rcases List.mem_or_eq_of_mem_set member with before | rfl
  · exact .inl before
  · exact .inr ⟨rfl, context⟩

theorem puts_delete? {store : Store} {table : Table} {chain : Chain} {index : Nat} {edit : Edit}
    (done : store.delete? table chain index = some edit) : store.Puts none edit := by
  obtain ⟨slot, -, -, -, rfl⟩ := delete?_eq_some_iff.1 done
  exact ⟨slot, _, rfl, fun other member => .inl (List.mem_of_mem_eraseIdx member)⟩

theorem setRules_rules (store : Store) (slot : Slot) : store.setRules slot (store.rules slot) = store := by
  cases slot <;> rfl

theorem puts_flush (store : Store) (table : Table) (chain : Chain) : store.Puts none (store.flush table chain) := by
  unfold flush
  split
  · rename_i slot _
    exact ⟨slot, [], rfl, by simp⟩
  · exact ⟨.filterInput, _, (store.setRules_rules .filterInput).symm, fun rule member => .inl member⟩

end Store

/-! ## Placing rules -/

/-- The slot where a rule that was read lands, unless the rule belongs elsewhere. -/
def Staged.landing? (staged : Staged) : Option Slot :=
  staged.slot?.filter fun slot => staged.rule.context = .ofSlot slot

theorem Staged.context_of_landing? {staged : Staged} {slot : Slot} (lands : staged.landing? = some slot) :
    staged.rule.context = .ofSlot slot := by
  obtain ⟨-, own⟩ := Option.filter_eq_some_iff.1 lands
  simpa using own

theorem slotFor?_slot (rule : Rule) (slot : Slot) :
    Store.slotFor? rule slot.table slot.chain = if rule.context = .ofSlot slot then some slot else none := by
  by_cases own : rule.context = .ofSlot slot
  · rw [if_pos own, Store.slotFor?_eq_some_iff]
    exact ⟨own, rfl, rfl⟩
  · rw [if_neg own, Store.slotFor?, if_neg fun belongs => own belongs.1]

namespace Store

theorem place?_eq (store : Store) (staged : Staged) :
    store.place? staged = staged.landing?.map fun slot =>
      ⟨store.setRules slot (store.rules slot ++ [staged.rule]), [⟨.appended, slot, (store.rules slot).length⟩]⟩ := by
  rw [place?, Staged.landing?]
  cases staged.slot? with
  | none => rfl
  | some slot =>
    rw [Option.bind_eq_bind, Option.bind_some, append?, slotFor?_slot, Option.filter_some]
    by_cases own : staged.rule.context = .ofSlot slot
    · rw [if_pos own, if_pos (decide_eq_true own)]
      rfl
    · rw [if_neg own, if_neg (by simpa using own)]
      rfl

/-- The rules that are read go behind those of their slots, in order. -/
theorem rules_placeAll (store : Store) (staged : List Staged) (slot : Slot) :
    (store.placeAll staged).store.rules slot =
      store.rules slot ++ (staged.filter fun one => one.landing? = some slot).map Staged.rule := by
  induction staged generalizing store with
  | nil => simp [placeAll]
  | cons first staged ih =>
    rw [placeAll, place?_eq]
    cases lands : first.landing? with
    | none => simp [ih, lands]
    | some place =>
      by_cases same : slot = place
      · subst same
        simp [ih, lands]
      · simp [ih, lands, rules_setRules_of_ne store same, Ne.symm same]

/-- The rules that are read are counted if they land somewhere. -/
theorem count_placeAll (store : Store) (staged : List Staged) :
    (store.placeAll staged).count = staged.countP fun one => one.landing?.isSome := by
  induction staged generalizing store with
  | nil => rfl
  | cons first staged ih =>
    rw [placeAll, place?_eq]
    cases lands : first.landing? <;> simp [ih, lands]

theorem grammar_placeAll (store : Store) (staged : List Staged) :
    (store.placeAll staged).store.grammar = store.grammar := by
  induction staged generalizing store with
  | nil => rfl
  | cons first staged ih =>
    rw [placeAll, place?_eq]
    cases lands : first.landing? with
    | none => exact ih store
    | some slot => exact ih _

/-- A rule that is there after reading was there before, or it was read and belongs there. -/
theorem mem_rules_placeAll {store : Store} {staged : List Staged} {slot : Slot} {rule : Rule}
    (member : rule ∈ (store.placeAll staged).store.rules slot) :
    rule ∈ store.rules slot ∨ rule ∈ staged.map (·.rule) ∧ rule.context = .ofSlot slot := by
  rw [rules_placeAll] at member
  rcases List.mem_append.1 member with before | read
  · exact .inl before
  · obtain ⟨one, inside, rfl⟩ := List.mem_map.1 read
    obtain ⟨inside, lands⟩ := List.mem_filter.1 inside
    exact .inr ⟨List.mem_map_of_mem inside, Staged.context_of_landing? (by simpa using lands)⟩

end Store

/-! ## Reading -/

section

variable (grammar : Grammar) (header? : Option Slot) (line : Nat) {text : String} (texts : List String)

theorem stage_blank (kind : SavedLine.ofText text = .blank) :
    stage grammar header? line (text :: texts) = stage grammar header? (line + 1) texts := by
  rw [stage, kind]

theorem stage_header {header : String} (kind : SavedLine.ofText text = .header header) :
    stage grammar header? line (text :: texts) =
      (Header.parse line header).bind fun slot => stage grammar (some slot) (line + 1) texts := by
  rw [stage, kind]
  rfl

theorem stage_rule {raw : String} (kind : SavedLine.ofText text = .rule raw) :
    stage grammar header? line (text :: texts) =
      (stage grammar header? (line + 1) texts).map (.ofText grammar header? line raw :: ·) := by
  rw [stage, kind]
  cases stage grammar header? (line + 1) texts <;> rfl

end

/-- Every rule that is staged is read from a text. -/
theorem rule_of_mem_stage {grammar : Grammar} {header? : Option Slot} {line : Nat} {texts : List String}
    {staged : List Staged} (read : stage grammar header? line texts = .ok staged) {rule : Rule}
    (member : rule ∈ staged.map (·.rule)) : ∃ preset raw, rule = Rule.new grammar preset raw := by
  induction texts generalizing header? line staged with
  | nil =>
    obtain rfl : [] = staged := Except.ok.inj read
    simp at member
  | cons text texts ih =>
    cases kind : SavedLine.ofText text with
    | blank =>
      rw [stage_blank _ _ _ _ kind] at read
      exact ih read member
    | header header =>
      rw [stage_header _ _ _ _ kind] at read
      cases named : Header.parse line header with
      | error error =>
        rw [named] at read
        cases read
      | ok slot =>
        rw [named] at read
        exact ih read member
    | rule raw =>
      rw [stage_rule _ _ _ _ kind] at read
      cases later : stage grammar header? (line + 1) texts with
      | error error =>
        rw [later] at read
        cases read
      | ok rest =>
        rw [later] at read
        obtain rfl : Staged.ofText grammar header? line raw :: rest = staged := Except.ok.inj read
        rcases List.mem_cons.1 member with rfl | inside
        · exact ⟨_, raw, rfl⟩
        · exact ih later inside

namespace Store

theorem load_stream (store : Store) (stream : ByteStream) :
    store.load (.stream stream) =
      (stage store.grammar none 1 (Lines.ofStream stream).texts).bind fun staged =>
        match (Lines.ofStream stream).error? with
        | some error => .error (.stream error)
        | none => .ok (store.placeAll staged) := by
  rw [load, stageStream]
  cases stage store.grammar none 1 (Lines.ofStream stream).texts with
  | error error => rfl
  | ok staged => cases (Lines.ofStream stream).error? <;> rfl

/-- A load succeeds exactly if the whole stream is text and every header in it is one of a slot. -/
theorem load_eq_ok_iff {store : Store} {origin : Origin} {loaded : Loaded} :
    store.load origin = .ok loaded ↔ ∃ stream staged, origin = .stream stream ∧
      stage store.grammar none 1 (Lines.ofStream stream).texts = .ok staged ∧
      (Lines.ofStream stream).error? = none ∧ store.placeAll staged = loaded := by
  constructor
  · intro read
    cases origin with
    | missingFile => cases read
    | stream stream =>
      rw [load_stream] at read
      cases staging : stage store.grammar none 1 (Lines.ofStream stream).texts with
      | error error =>
        rw [staging] at read
        cases read
      | ok staged =>
        cases failed : (Lines.ofStream stream).error? with
        | some error =>
          rw [staging, failed] at read
          cases read
        | none =>
          rw [staging, failed] at read
          exact ⟨stream, staged, rfl, staging, failed, Except.ok.inj read⟩
  · rintro ⟨stream, staged, rfl, staging, whole, rfl⟩
    rw [load_stream, staging, whole]
    rfl

theorem perform?_load_eq_some {store : Store} {origin : Origin} {edit : Edit}
    (done : store.perform? (.load origin) = some edit) :
    ∃ loaded, store.load origin = .ok loaded ∧ Edit.mk loaded.store loaded.changes = edit := by
  cases read : store.load origin with
  | error error => simp [perform?, read] at done
  | ok loaded => exact ⟨loaded, rfl, by simpa [perform?, read] using done⟩

theorem mem_rules_load {store : Store} {origin : Origin} {loaded : Loaded} (read : store.load origin = .ok loaded)
    {slot : Slot} {rule : Rule} (member : rule ∈ loaded.store.rules slot) :
    rule ∈ store.rules slot ∨ (∃ preset raw, rule = Rule.new store.grammar preset raw) ∧ rule.context = .ofSlot slot := by
  obtain ⟨stream, staged, -, staging, -, rfl⟩ := load_eq_ok_iff.1 read
  rcases mem_rules_placeAll member with before | ⟨inside, context⟩
  · exact .inl before
  · exact .inr ⟨rule_of_mem_stage staging inside, context⟩

/-! ## Runs -/

/-- Whether a rule comes into a store by an operation: it is given, or it is read from a text. -/
def Brings (store : Store) (operation : Operation) (rule : Rule) : Prop :=
  operation.rule? = some rule ∨ ∃ preset raw, rule = Rule.new store.grammar preset raw

/-- An operation that is done changes one slot, or it is a load. -/
theorem perform?_cases {store : Store} {operation : Operation} {edit : Edit}
    (done : store.perform? operation = some edit) :
    (∃ new?, store.Puts new? edit ∧ ∀ rule ∈ new?, store.Brings operation rule) ∨
      ∃ origin loaded, store.load origin = .ok loaded ∧ edit.store = loaded.store := by
  cases operation with
  | append rule table chain => exact .inl ⟨some rule, puts_append? done, by simp [Brings, Operation.rule?]⟩
  | insert rule table chain index => exact .inl ⟨some rule, puts_insert? done, by simp [Brings, Operation.rule?]⟩
  | overwrite rule table chain index => exact .inl ⟨some rule, puts_overwrite? done, by simp [Brings, Operation.rule?]⟩
  | update raw table chain index =>
    refine .inl ⟨_, puts_overwrite? done, fun rule member => ?_⟩
    obtain rfl := Option.mem_some_iff.1 member
    exact .inr ⟨_, raw, rfl⟩
  | delete table chain index => exact .inl ⟨none, puts_delete? done, by simp⟩
  | flush table chain =>
    obtain rfl : store.flush table chain = edit := Option.some.inj done
    exact .inl ⟨none, puts_flush store table chain, by simp⟩
  | load origin =>
    obtain ⟨loaded, read, rfl⟩ := perform?_load_eq_some done
    exact .inr ⟨origin, loaded, read, rfl⟩

theorem grammar_perform (store : Store) (operation : Operation) :
    (store.perform operation).store.grammar = store.grammar := by
  cases done : store.perform? operation with
  | none => rw [perform, done, Option.getD_none]
  | some edit =>
    rw [perform, done, Option.getD_some]
    rcases perform?_cases done with ⟨new?, puts, -⟩ | ⟨origin, loaded, read, same⟩
    · exact puts.grammar_eq
    · obtain ⟨-, staged, -, -, -, rfl⟩ := load_eq_ok_iff.1 read
      rw [same, grammar_placeAll]

/-- A rule that is in a slot after an operation was there before, or it came in and belongs there. -/
theorem mem_rules_perform {store : Store} {operation : Operation} {slot : Slot} {rule : Rule}
    (member : rule ∈ (store.perform operation).store.rules slot) :
    rule ∈ store.rules slot ∨ store.Brings operation rule ∧ rule.context = .ofSlot slot := by
  cases done : store.perform? operation with
  | none =>
    rw [perform, done] at member
    exact .inl member
  | some edit =>
    rw [perform, done, Option.getD_some] at member
    rcases perform?_cases done with ⟨new?, puts, brings⟩ | ⟨origin, loaded, read, same⟩
    · rcases puts.mem_rules member with before | ⟨fresh, context⟩
      · exact .inl before
      · exact .inr ⟨brings rule fresh, context⟩
    · rw [same] at member
      rcases mem_rules_load read member with before | ⟨fresh, context⟩
      · exact .inl before
      · exact .inr ⟨.inr fresh, context⟩

theorem Reached.grammar_eq {admits : Rule → Prop} {grammar : Grammar} {store : Store}
    (reached : Reached admits grammar store) : store.grammar = grammar := by
  induction reached with
  | new => rfl
  | step before admitted ih => rw [grammar_perform, ih]

/-- Every rule that a run leaves in a slot belongs there, and it was admitted or read from a text. -/
theorem Reached.admitted {admits : Rule → Prop} {grammar : Grammar} {store : Store}
    (reached : Reached admits grammar store) {slot : Slot} {rule : Rule} (member : rule ∈ store.rules slot) :
    (admits rule ∨ ∃ preset raw, rule = Rule.new grammar preset raw) ∧ rule.context = .ofSlot slot := by
  induction reached generalizing slot rule with
  | new =>
    have nothing : (Store.new grammar).rules slot = [] := SlotMap.get_const [] slot
    rw [nothing] at member
    exact absurd member List.not_mem_nil
  | @step store operation before admitted ih =>
    rcases mem_rules_perform member with already | ⟨given | ⟨preset, raw, rfl⟩, context⟩
    · exact ih already
    · exact ⟨.inl (admitted rule given), context⟩
    · exact ⟨.inr ⟨preset, raw, by rw [before.grammar_eq]⟩, context⟩

end Store

end PacketFilter
