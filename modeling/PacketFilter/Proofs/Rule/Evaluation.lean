import Mathlib.Data.List.Forall2
import PacketFilter.Proofs.Grammar.Clause
import PacketFilter.Rule

/-!
# Evaluation

A rule decides on a packet by its last action, if no condition fails. So the order of the conditions does
not matter, and neither do needless zeros of port numbers. Of rules in a row the first one with a verdict decides.
Main statements: `run?_eq`, `run?_of_perm`, `run?_matches` and `evaluate?_eq_some_iff`.
-/

namespace PacketFilter

namespace Part

/-- The action of a part and its value. -/
def action? : Part → Option (Action × String)
  | .action a given? => some (a, given?.getD "")
  | _ => none

theorem decide?_eq (packet : Packet) (last? : Option (Action × String)) (parts : List Part) :
    decide? packet last? parts =
      if parts.any (fails packet) then none else (parts.filterMap action?).getLast?.or last? := by
  induction parts generalizing last? with
  | nil => simp [decide?]
  | cons part parts ih =>
    cases part with
    | condition c given? =>
      by_cases holds : c.test packet (given?.getD "") = true <;> simp [decide?, fails, action?, holds, ih]
    | action a given? =>
      rw [decide?, ih, List.any_cons, List.filterMap_cons]
      simp only [fails, Bool.false_or, action?, List.getLast?_cons]
      cases (parts.filterMap action?).getLast? <;> simp
    | _ => simp [decide?, fails, action?, ih]

/-- The verdict of parts is that of the last action, if no condition fails. -/
theorem run?_eq (parts : List Part) (packet : Packet) :
    run? parts packet =
      if parts.any (fails packet) then none
      else (parts.filterMap action?).getLast?.map fun (last, value) => last.apply packet value := by
  rw [run?, decide?_eq]
  split <;> simp

/-- Parts in another order have the same verdict, if their actions are in the same order. -/
theorem run?_of_perm {ps qs : List Part} (perm : ps.Perm qs) (actions : ps.filterMap action? = qs.filterMap action?)
    (packet : Packet) : run? ps packet = run? qs packet := by
  rw [run?_eq, run?_eq, actions, perm.any_eq]

/-- If at most one of the parts has no condition, at most one is an action. -/
theorem length_filterMap_action? {parts : List Part} (once : (parts.map condition?).Nodup) :
    (parts.filterMap action?).length ≤ 1 := by
  induction parts with
  | nil => simp
  | cons part parts ih =>
    obtain ⟨fresh, others⟩ := List.nodup_cons.1 once
    cases part with
    | action a value? =>
      have alone : parts.filterMap action? = [] := by
        refine List.filterMap_eq_nil_iff.2 fun other member => ?_
        have differ : other.condition? ≠ none := fun same => fresh (List.mem_map.2 ⟨other, member, same⟩)
        cases other <;> first | rfl | exact absurd rfl differ
      rw [List.filterMap_cons, action?, alone]
      exact Nat.le_refl 1
    | _ => exact ih others

/-! ## Matching packets -/

/-- Parts match a packet with a verdict when the packet satisfies every condition, and the last action gives the
    verdict. -/
structure Matches (parts : List Part) (packet : Packet) (verdict : Verdict) : Prop where
  conditions : ∀ c given?, .condition c given? ∈ parts → c.test packet (given?.getD "") = true
  last : ∃ front a given? back, parts = front ++ .action a given? :: back ∧ (∀ b other?, .action b other? ∉ back) ∧
    a.apply packet (given?.getD "") = verdict

theorem any_fails_eq_true_iff {parts : List Part} {packet : Packet} :
    parts.any (fails packet) = true ↔ ∃ c given?, .condition c given? ∈ parts ∧ c.test packet (given?.getD "") = false := by
  rw [List.any_eq_true]
  constructor
  · rintro ⟨part, member, failing⟩
    cases part with
    | condition c given? => exact ⟨c, given?, member, by simpa [fails] using failing⟩
    | _ => cases failing
  · rintro ⟨c, given?, member, failing⟩
    exact ⟨.condition c given?, member, by simp [fails, failing]⟩

theorem filterMap_action?_eq_nil_iff {parts : List Part} :
    parts.filterMap action? = [] ↔ ∀ a given?, .action a given? ∉ parts := by
  rw [List.filterMap_eq_nil_iff]
  constructor
  · intro silent a given? member
    cases silent _ member
  · intro absent part member
    cases part with
    | action a given? => exact absurd member (absent a given?)
    | _ => rfl

theorem getLast?_action?_eq_some_iff {parts : List Part} {a : Action} {value : String} :
    (parts.filterMap action?).getLast? = some (a, value) ↔ ∃ front given? back,
      parts = front ++ .action a given? :: back ∧ (∀ b other?, .action b other? ∉ back) ∧ given?.getD "" = value := by
  constructor
  · intro last
    obtain ⟨before, split⟩ := List.getLast?_eq_some_iff.1 last
    obtain ⟨front, rest, rfl, -, found⟩ := List.filterMap_eq_append_iff.1 split
    obtain ⟨between, part, back, rfl, -, isAction, silent⟩ := List.filterMap_eq_cons_iff.1 found
    cases part with
    | action b given? =>
      obtain ⟨rfl, rfl⟩ := Prod.mk.inj (Option.some.inj isAction)
      exact ⟨front ++ between, given?, back, by simp, filterMap_action?_eq_nil_iff.1 silent, rfl⟩
    | _ => cases isAction
  · rintro ⟨front, given?, back, rfl, absent, rfl⟩
    simp [action?, filterMap_action?_eq_nil_iff.2 absent]

theorem run?_eq_none_iff {parts : List Part} {packet : Packet} :
    run? parts packet = none ↔
      (∃ c given?, .condition c given? ∈ parts ∧ c.test packet (given?.getD "") = false) ∨
        ∀ a given?, .action a given? ∉ parts := by
  rw [run?_eq, ← any_fails_eq_true_iff, ← filterMap_action?_eq_nil_iff]
  by_cases failing : parts.any (fails packet) = true
  · simp [failing]
  · rw [if_neg failing, Option.map_eq_none_iff, List.getLast?_eq_none_iff]
    simp [failing]

theorem run?_eq_some_iff {parts : List Part} {packet : Packet} {verdict : Verdict} :
    run? parts packet = some verdict ↔ Matches parts packet verdict := by
  have allHold : ¬ parts.any (fails packet) = true ↔
      ∀ c given?, .condition c given? ∈ parts → c.test packet (given?.getD "") = true := by
    rw [any_fails_eq_true_iff]
    simp
  rw [run?_eq]
  by_cases failing : parts.any (fails packet) = true
  · rw [if_pos failing]
    constructor
    · intro decided
      cases decided
    · intro found
      exact absurd failing (allHold.2 found.conditions)
  · rw [if_neg failing, Option.map_eq_some_iff]
    constructor
    · rintro ⟨⟨a, value⟩, last, rfl⟩
      obtain ⟨front, given?, back, split, absent, rfl⟩ := getLast?_action?_eq_some_iff.1 last
      exact ⟨allHold.1 failing, front, a, given?, back, split, absent, rfl⟩
    · rintro ⟨-, front, a, given?, back, split, absent, rfl⟩
      exact ⟨(a, given?.getD ""), getLast?_action?_eq_some_iff.2 ⟨front, given?, back, split, absent, rfl⟩, rfl⟩

/-- One more condition, wherever it stands, only asks whether the packet satisfies it. -/
theorem run?_with_condition (front back : List Part) (c : Condition) (given? : Option String) (packet : Packet) :
    run? (front ++ .condition c given? :: back) packet =
      if c.test packet (given?.getD "") then run? (front ++ back) packet else none := by
  have actions : (front ++ .condition c given? :: back).filterMap action? = (front ++ back).filterMap action? := by
    rw [List.filterMap_append, List.filterMap_cons_none rfl, List.filterMap_append]
  rw [run?_eq, run?_eq, actions, List.any_append, List.any_cons, List.any_append]
  by_cases holds : c.test packet (given?.getD "") = true
  · simp [fails, holds]
  · simp [fails, holds]

/-- Parts decide on a packet unless one of their conditions fails or they have no action, and then by the last action on
    the packet as it was. The order of the conditions does not matter, and a further condition can only keep the parts
    from deciding. -/
theorem run?_matches (parts : List Part) (packet : Packet) :
    (run? parts packet = none ↔
      (∃ c given?, .condition c given? ∈ parts ∧ c.test packet (given?.getD "") = false) ∨
        ∀ a given?, .action a given? ∉ parts) ∧
    (∀ verdict, run? parts packet = some verdict ↔ Matches parts packet verdict) ∧
    (∀ others, others.Perm parts → others.filterMap action? = parts.filterMap action? →
      run? others packet = run? parts packet) ∧
    ∀ front back c given?, front ++ back = parts →
      run? (front ++ .condition c given? :: back) packet =
        if c.test packet (given?.getD "") then run? parts packet else none := by
  refine ⟨run?_eq_none_iff, fun verdict => run?_eq_some_iff, ?_, ?_⟩
  · intro others perm actions
    exact run?_of_perm perm actions packet
  · rintro front back c given? rfl
    exact run?_with_condition front back c given? packet

/-! ## Needless zeros -/

theorem parse_of_number? {word : String} {port : UInt16} (number : Port.number? word = some port) :
    Port.parse word = .ok port := by
  unfold Port.number? at number
  simp [Port.parse, number]

theorem portIs_plain (field? : Option Value) (text : String) :
    Condition.portIs field? (Port.plain text) = Condition.portIs field? text := by
  cases number : Port.number? text with
  | none => rw [Port.plain_of_none number]
  | some port =>
    have again := (Port.number?_plain text).trans number
    unfold Condition.portIs
    rw [parse_of_number? number, parse_of_number? again]

theorem fails_plain (packet : Packet) (part : Part) : part.plain.fails packet = part.fails packet := by
  rcases plain_cases part with same | ⟨side, p, text, rfl⟩
  · rw [same]
  · simp [plain, fails, Condition.test, portIs_plain]

theorem action?_plain (part : Part) : part.plain.action? = part.action? := by
  rcases plain_cases part with same | ⟨side, p, text, rfl⟩
  · rw [same]
  · rfl

theorem run?_map_plain (parts : List Part) (packet : Packet) : run? (parts.map plain) packet = run? parts packet := by
  have conditions : (parts.map plain).any (fails packet) = parts.any (fails packet) := by
    simp [List.any_map, Function.comp_def, fails_plain]
  have actions : (parts.map plain).filterMap action? = parts.filterMap action? := by
    simp [List.filterMap_map, action?_plain]
  rw [run?_eq, run?_eq, conditions, actions]

end Part

namespace Grammar.Clause

/-! ## Clauses in tidy form -/

theorem action?_allParts_tidy (clauses : List Clause) :
    (allParts (clauses.map tidy)).filterMap Part.action? = (allParts clauses).filterMap Part.action? := by
  induction clauses with
  | nil => rfl
  | cons clause clauses ih =>
    have own : clause.tidy.parts.filterMap Part.action? = clause.parts.filterMap Part.action? := by
      cases clause with
      | protocol p ports =>
        have silent (ports : List (Side × String)) : (Flag.portParts p ports).filterMap Part.action? = [] := by
          simp [Flag.portParts, Part.action?]
        rw [tidy, parts, parts, List.filterMap_cons, List.filterMap_cons, silent, silent]
      | _ => rfl
    rw [List.map_cons, allParts_cons, allParts_cons, List.filterMap_append, List.filterMap_append, own, ih]

/-- Clauses in tidy form have the same verdict behind a header. -/
theorem run?_tidy (front : List Part) {clauses : List Clause} (proper : ∀ clause ∈ clauses, clause.Proper)
    (packet : Packet) :
    Part.run? (front ++ allParts (clauses.map tidy)) packet = Part.run? (front ++ allParts clauses) packet := by
  have twice : ((allParts clauses).map Part.plain).map Part.plain = (allParts clauses).map Part.plain := by
    simp [Function.comp_def]
  have perm : ((front ++ allParts (clauses.map tidy)).map Part.plain).Perm ((front ++ allParts clauses).map Part.plain) := by
    rw [List.map_append, List.map_append, ← twice]
    exact ((allParts_tidy_perm proper).map Part.plain).append_left _
  have actions (ps : List Part) : (ps.map Part.plain).filterMap Part.action? = ps.filterMap Part.action? := by
    simp [List.filterMap_map, Part.action?_plain]
  rw [← Part.run?_map_plain, ← Part.run?_map_plain (front ++ allParts clauses)]
  refine Part.run?_of_perm perm ?_ packet
  rw [actions, actions, List.filterMap_append, List.filterMap_append, action?_allParts_tidy]

end Grammar.Clause

/-! ## Rules in a row -/

theorem evaluate?_cons (rule : Rule) (rules : List Rule) (packet : Packet) :
    evaluate? (rule :: rules) packet =
      match rule.run? packet with
      | some verdict => some (0, verdict)
      | none => (evaluate? rules packet).map fun (index, verdict) => (index + 1, verdict) := by
  unfold evaluate?
  rw [List.zipIdx_cons, List.findSome?_cons]
  cases decided : rule.run? packet with
  | some verdict => simp [decided]
  | none =>
    rw [List.zipIdx_succ, List.findSome?_map, List.map_findSome?]
    simp [decided, Function.comp_def]

/-- The verdict of rules is that of the first one that decides. -/
theorem map_snd_evaluate? (rules : List Rule) (packet : Packet) :
    (evaluate? rules packet).map Prod.snd = rules.findSome? fun rule => rule.run? packet := by
  induction rules with
  | nil => rfl
  | cons rule rules ih =>
    rw [evaluate?_cons, List.findSome?_cons, ← ih]
    cases rule.run? packet with
    | some verdict => rfl
    | none => simp [Function.comp_def]

/-- A rule decides on a packet when it has a verdict and no rule in front of it has one. -/
structure Decides (rules : List Rule) (packet : Packet) (index : Nat) (verdict : Verdict) : Prop where
  own : ∃ rule, rules[index]? = some rule ∧ rule.run? packet = some verdict
  earlier : ∀ i < index, ∀ rule, rules[i]? = some rule → rule.run? packet = none

theorem decides_cons_of_some {rule : Rule} {rules : List Rule} {packet : Packet} {first : Verdict}
    (decided : rule.run? packet = some first) {index : Nat} {verdict : Verdict} :
    Decides (rule :: rules) packet index verdict ↔ index = 0 ∧ verdict = first := by
  constructor
  · intro decides
    obtain ⟨other, found, run⟩ := decides.own
    cases index with
    | zero =>
      obtain rfl : rule = other := Option.some.inj found
      exact ⟨rfl, Option.some.inj (run.symm.trans decided)⟩
    | succ index =>
      have silent := decides.earlier 0 (by omega) rule rfl
      simp [decided] at silent
  · rintro ⟨rfl, rfl⟩
    exact ⟨⟨rule, rfl, decided⟩, fun i before => by omega⟩

theorem decides_cons_of_none {rule : Rule} {rules : List Rule} {packet : Packet} (silent : rule.run? packet = none)
    {index : Nat} {verdict : Verdict} :
    Decides (rule :: rules) packet index verdict ↔ ∃ i, index = i + 1 ∧ Decides rules packet i verdict := by
  constructor
  · intro decides
    obtain ⟨other, found, run⟩ := decides.own
    cases index with
    | zero =>
      obtain rfl : rule = other := Option.some.inj found
      simp [silent] at run
    | succ index =>
      exact ⟨index, rfl, ⟨other, found, run⟩, fun i before => decides.earlier (i + 1) (by omega)⟩
  · rintro ⟨i, rfl, ⟨other, found, run⟩, earlier⟩
    refine ⟨⟨other, found, run⟩, ?_⟩
    intro j before first same
    cases j with
    | zero =>
      obtain rfl : rule = first := Option.some.inj same
      exact silent
    | succ j => exact earlier j (by omega) first same

theorem evaluate?_eq_some_iff {rules : List Rule} {packet : Packet} {index : Nat} {verdict : Verdict} :
    evaluate? rules packet = some (index, verdict) ↔ Decides rules packet index verdict := by
  induction rules generalizing index with
  | nil =>
    constructor
    · intro found
      cases found
    · rintro ⟨⟨rule, found, -⟩, -⟩
      simp at found
  | cons rule rules ih =>
    rw [evaluate?_cons]
    cases decided : rule.run? packet with
    | some first => simp [decides_cons_of_some decided, eq_comm]
    | none =>
      rw [decides_cons_of_none decided]
      constructor
      · intro found
        obtain ⟨⟨i, other⟩, inside, same⟩ := Option.map_eq_some_iff.1 found
        obtain ⟨rfl, rfl⟩ := Prod.mk.inj same
        exact ⟨i, rfl, ih.1 inside⟩
      · rintro ⟨i, rfl, decides⟩
        simp [ih.2 decides]

/-- Rules that decide alike one by one decide alike together. -/
theorem findSome?_of_forall₂ {packet : Packet} {rules others : List Rule}
    (alike : List.Forall₂ (fun rule other => rule.run? packet = other.run? packet) rules others) :
    (rules.findSome? fun rule => rule.run? packet) = others.findSome? fun rule => rule.run? packet := by
  induction alike with
  | nil => rfl
  | cons same _ ih => rw [List.findSome?_cons, List.findSome?_cons, same, ih]

theorem Rule.run?_of_elements_eq_nil {rule : Rule} (nothing : rule.elements = []) (packet : Packet) :
    rule.run? packet = none := by
  have empty : rule.parts = [] := by simp [parts, nothing, PacketFilter.parts]
  rw [run?, empty]
  rfl

end PacketFilter
