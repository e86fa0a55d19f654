import PacketFilter.Log.Store
import PacketFilter.Proofs.Store.Loading
import PacketFilter.Proofs.Store.Mirror

/-!
# Changes in the log

What is noted while rules are matched, edited and read agrees with what happens. Main statements: `newRule_eq_nil_iff`,
a new rule notes nothing exactly if all that it was given is used, `changes_perform`, an operation notes its changes, each
once and in order, `changes_performAll` for a run, and `load_noted`, every rule that is read is noted as a change or as
skipped.
-/

namespace PacketFilter.Log

/-- What is noted at a level is noted at every level that is less severe. -/
theorem lines_sublist {severe level : Level} (less : severe.rank ≤ level.rank) (events : List Event) :
    (lines severe events).Sublist (lines level events) := by
  refine List.Sublist.map _ (List.monotone_filter_right events fun event noted => ?_)
  simp only [decide_eq_true_eq] at noted ⊢
  exact Nat.le_trans noted less

/-! ## Changes and skips -/

/-- The change that an event notes. -/
def Event.change? : Event → Option Change
  | storeChanged change => some change
  | _ => none

/-- The line and the text of a rule that an event notes as skipped. -/
def Event.skipped? : Event → Option (Nat × String)
  | ruleSkipped line rule => some (line, rule)
  | _ => none

/-- The changes that events note. -/
def changes (events : List Event) : List Change := events.filterMap Event.change?

/-- The rules that events note as skipped. -/
def skips (events : List Event) : List (Nat × String) := events.filterMap Event.skipped?

@[simp] theorem changes_append (first later : List Event) : changes (first ++ later) = changes first ++ changes later :=
  List.filterMap_append

@[simp] theorem skips_append (first later : List Event) : skips (first ++ later) = skips first ++ skips later :=
  List.filterMap_append

@[simp] theorem changes_storeChanged (list : List Change) : changes (list.map .storeChanged) = list := by
  simp [changes, List.filterMap_map, Function.comp_def, Event.change?]

@[simp] theorem skips_storeChanged (list : List Change) : skips (list.map .storeChanged) = [] := by
  simp [skips, List.filterMap_map, Function.comp_def, Event.skipped?]

theorem silent_of_forall {events : List Event} (each : ∀ event ∈ events, event.change? = none ∧ event.skipped? = none) :
    changes events = [] ∧ skips events = [] :=
  ⟨List.filterMap_eq_nil_iff.2 fun event member => (each event member).1,
    List.filterMap_eq_nil_iff.2 fun event member => (each event member).2⟩

/-! ## Matching -/

/-- Events that note how a text was matched. -/
def Event.IsMatching : Event → Prop
  | presetDropped _ _ | partialMatch _ _ _ => True
  | _ => False

theorem isMatching_of_newRule {grammar : Grammar} {preset : Context} {raw : String} :
    ∀ event ∈ newRule grammar preset raw, event.IsMatching := by
  have dropped : ∀ event ∈ Log.preset preset, event.IsMatching := by
    intro event member
    unfold Log.preset at member
    split at member
    · split at member
      · cases member
      · obtain rfl := List.mem_singleton.1 member
        trivial
    · cases member
  have matched (outcome : Outcome) : ∀ event ∈ Log.outcome raw (some outcome), event.IsMatching := by
    intro event member
    simp only [Log.outcome] at member
    split at member
    · cases member
    · obtain rfl := List.mem_singleton.1 member
      trivial
  intro event member
  unfold newRule at member
  rcases List.mem_append.1 member with first | later
  · exact dropped event first
  · split at later
    · cases later
    · exact matched _ event later

theorem silent_of_isMatching {events : List Event} (all : ∀ event ∈ events, event.IsMatching) :
    changes events = [] ∧ skips events = [] := by
  refine silent_of_forall fun event member => ?_
  have matching := all event member
  cases event <;> first | exact ⟨rfl, rfl⟩ | exact matching.elim

theorem preset_eq_nil_iff {context : Context} : Log.preset context = [] ↔ ¬ context.Clashes := by
  rcases context with ⟨_ | table, _ | chain⟩ <;> simp [Log.preset, Context.Clashes]

theorem outcome_eq_nil_iff {raw : String} {outcome : Outcome} :
    Log.outcome raw (some outcome) = [] ↔ outcome.complete = true := by
  simp [Log.outcome]

/-- A new rule notes nothing exactly if its preset chain is kept and its text is blank or matched completely. -/
theorem newRule_eq_nil_iff {grammar : Grammar} {preset : Context} {raw : String} :
    newRule grammar preset raw = [] ↔
      ¬ preset.Clashes ∧ (Text.IsBlank raw ∨ (grammar.parse preset.settled (Token.scan raw)).complete = true) := by
  rw [newRule, List.append_eq_nil_iff, preset_eq_nil_iff]
  by_cases blank : Text.IsBlank raw
  · simp [blank]
  · simp [blank, outcome_eq_nil_iff]

/-- Matching a rule again notes nothing if only a complete match counts. -/
theorem parse_of_strict (rule : Rule) : parse rule false = [] := by
  rw [parse, Rule.parse?, Grammar.parse?]
  cases complete : (rule.grammar.parse rule.context (Token.scan rule.raw)).complete with
  | true => simp [Log.outcome, complete]
  | false => rfl

/-! ## Reading -/

/-- The events of the rules that were read. -/
def ofStaged (grammar : Grammar) (staged : List Staged) : List Event :=
  staged.flatMap fun one => newRule grammar ((one.header?.map Context.ofSlot).getD .unknown) one.rule.raw

theorem isMatching_of_ofStaged {grammar : Grammar} {staged : List Staged} :
    ∀ event ∈ ofStaged grammar staged, event.IsMatching := by
  intro event member
  obtain ⟨one, -, inside⟩ := List.mem_flatMap.1 member
  exact isMatching_of_newRule event inside

/-- The events of lines are those of the rules that were read, up to a header that is refused. -/
theorem stage_eq (grammar : Grammar) (header? : Option Slot) (line : Nat) (texts : List String) :
    ∃ front back staged, texts = front ++ back ∧ PacketFilter.stage grammar header? line front = .ok staged ∧
      stage grammar header? line texts = ofStaged grammar staged ∧
      (back = [] ∨ ∃ error, PacketFilter.stage grammar header? line texts = .error error) := by
  induction texts generalizing header? line with
  | nil => exact ⟨[], [], [], rfl, rfl, rfl, .inl rfl⟩
  | cons text texts ih =>
    cases kind : SavedLine.ofText text with
    | blank =>
      obtain ⟨front, back, staged, rfl, read, events, ends⟩ := ih header? (line + 1)
      refine ⟨text :: front, back, staged, rfl, ?_, ?_, ?_⟩
      · rw [stage_blank _ _ _ _ kind, read]
      · rw [stage, kind]
        exact events
      · rw [stage_blank _ _ _ _ kind]
        exact ends
    | header header =>
      cases named : Header.parse line header with
      | error error =>
        refine ⟨[], text :: texts, [], rfl, rfl, ?_, .inr ⟨error, ?_⟩⟩
        · rw [stage, kind]
          simp only [named]
          rfl
        · rw [stage_header _ _ _ _ kind, named]
          rfl
      | ok slot =>
        obtain ⟨front, back, staged, rfl, read, events, ends⟩ := ih (some slot) (line + 1)
        refine ⟨text :: front, back, staged, rfl, ?_, ?_, ?_⟩
        · rw [stage_header _ _ _ _ kind, named]
          exact read
        · rw [stage, kind]
          simp only [named]
          exact events
        · rw [stage_header _ _ _ _ kind, named]
          exact ends
    | rule raw =>
      obtain ⟨front, back, staged, rfl, read, events, ends⟩ := ih header? (line + 1)
      refine ⟨text :: front, back, .ofText grammar header? line raw :: staged, rfl, ?_, ?_, ?_⟩
      · rw [stage_rule _ _ _ _ kind, read]
        rfl
      · rw [stage, kind]
        simp only [events, ofStaged, List.flatMap_cons, Staged.ofText, Rule.raw_new]
      · rcases ends with whole | ⟨error, failed⟩
        · exact .inl whole
        · refine .inr ⟨error, ?_⟩
          rw [stage_rule _ _ _ _ kind, failed]
          rfl

/-- If every line is read, the events are those of all rules. -/
theorem stage_of_ok {grammar : Grammar} {header? : Option Slot} {line : Nat} {texts : List String}
    {staged : List Staged} (read : PacketFilter.stage grammar header? line texts = .ok staged) :
    stage grammar header? line texts = ofStaged grammar staged := by
  obtain ⟨front, back, found, rfl, readFront, events, rfl | ⟨error, failed⟩⟩ := stage_eq grammar header? line texts
  · rw [List.append_nil] at read
    obtain rfl : found = staged := Except.ok.inj (readFront.symm.trans read)
    exact events
  · rw [failed] at read
    cases read

theorem isMatching_of_stage {grammar : Grammar} {header? : Option Slot} {line : Nat} {texts : List String} :
    ∀ event ∈ stage grammar header? line texts, event.IsMatching := by
  obtain ⟨front, back, staged, -, -, events, -⟩ := stage_eq grammar header? line texts
  rw [events]
  exact isMatching_of_ofStaged

/-! ## Edits -/

theorem changes_edit (store : Store) {edit? : Option Edit} {belongs : Prop} [Decidable belongs] {rejection : Event}
    (silent : rejection.change? = none) : changes (edit edit? belongs rejection) = (edit?.getD ⟨store, []⟩).changes := by
  cases edit? with
  | none =>
    simp only [edit]
    split
    · rfl
    · simp [changes, silent]
  | some edit => exact changes_storeChanged edit.changes

theorem skips_edit {edit? : Option Edit} {belongs : Prop} [Decidable belongs] {rejection : Event}
    (silent : rejection.skipped? = none) : skips (edit edit? belongs rejection) = [] := by
  cases edit? with
  | none =>
    simp only [edit]
    split
    · rfl
    · simp [skips, silent]
  | some edit => exact skips_storeChanged edit.changes

theorem changes_place (store : Store) (staged : Staged) :
    changes (place store staged) = ((store.place? staged).getD ⟨store, []⟩).changes := by
  have skipped : changes (if (store.place? staged).isSome then [] else [.ruleSkipped staged.line staged.rule.text]) = [] := by
    split <;> rfl
  rw [place, changes_append, skipped, List.append_nil, Store.place?]
  cases staged.slot? with
  | none => rfl
  | some slot => exact changes_edit store rfl

/-- A rule that was read is noted as skipped if it lands nowhere. -/
theorem skips_place (store : Store) (staged : Staged) :
    skips (place store staged) = if staged.landing?.isSome then [] else [(staged.line, staged.rule.text)] := by
  have skipped : skips (if (store.place? staged).isSome then [] else [.ruleSkipped staged.line staged.rule.text]) =
      if staged.landing?.isSome then [] else [(staged.line, staged.rule.text)] := by
    rw [Store.place?_eq, Option.isSome_map]
    split <;> rfl
  rw [place, skips_append, skipped]
  cases staged.slot? with
  | none => rfl
  | some slot =>
    have appended : skips (append store staged.rule slot.table slot.chain) = [] := skips_edit rfl
    simp only [appended, List.nil_append]

theorem changes_placeAll (store : Store) (staged : List Staged) :
    changes (placeAll store staged) = (store.placeAll staged).changes := by
  induction staged generalizing store with
  | nil => rfl
  | cons first staged ih =>
    rw [placeAll, Store.placeAll, changes_append, changes_place, ih]
    cases store.place? first with
    | none => rfl
    | some edit => rfl

/-- The rules that are noted as skipped are those that land nowhere, in order. -/
theorem skips_placeAll (store : Store) (staged : List Staged) :
    skips (placeAll store staged) =
      (staged.filter fun one => one.landing?.isNone).map fun one => (one.line, one.rule.text) := by
  induction staged generalizing store with
  | nil => rfl
  | cons first staged ih =>
    rw [placeAll, skips_append, skips_place, ih]
    cases lands : first.landing? <;> simp [lands]

/-! ## Operations -/

/-- The events of `Store.perform`. -/
def perform (store : Store) : Operation → List Event
  | .append rule table chain => append store rule table chain
  | .insert rule table chain index => insert store rule table chain index
  | .overwrite rule table chain index => overwrite store rule table chain index
  | .update raw table chain index => update store raw table chain index
  | .delete table chain index => delete store table chain index
  | .flush table chain => flush store table chain
  | .load origin => load store origin

/-- The events of `Store.run`. -/
def performAll (store : Store) : List Operation → List Event
  | [] => []
  | operation :: operations => perform store operation ++ performAll (store.perform operation).store operations

theorem load_of_ok {store : Store} {origin : Origin} {loaded : Loaded} (read : store.load origin = .ok loaded) :
    ∃ stream staged, origin = .stream stream ∧
      PacketFilter.stage store.grammar none 1 (Lines.ofStream stream).texts = .ok staged ∧
      store.placeAll staged = loaded ∧
      load store origin = ofStaged store.grammar staged ++ (placeAll store staged ++ [.storeLoaded loaded.count]) := by
  obtain ⟨stream, staged, rfl, staging, whole, rfl⟩ := Store.load_eq_ok_iff.1 read
  have all : stageStream store.grammar stream = .ok staged := by
    simp only [stageStream, staging, whole]
    rfl
  refine ⟨stream, staged, rfl, staging, rfl, ?_⟩
  rw [load, all, stage_of_ok staging]

/-- A load that fails notes how rules were matched, and nothing else. -/
theorem isMatching_of_load {store : Store} {origin : Origin} {error : LoadError}
    (failed : store.load origin = .error error) : ∀ event ∈ load store origin, event.IsMatching := by
  cases origin with
  | missingFile =>
    intro event member
    cases member
  | stream stream =>
    rw [Store.load] at failed
    cases read : stageStream store.grammar stream with
    | ok staged =>
      rw [read] at failed
      cases failed
    | error own =>
      rw [load, read, List.append_nil]
      exact isMatching_of_stage

theorem changes_load (store : Store) (origin : Origin) :
    changes (load store origin) = (store.perform (.load origin)).changes := by
  rw [Store.perform, Store.perform?]
  cases read : store.load origin with
  | error error => exact (silent_of_isMatching (isMatching_of_load read)).1
  | ok loaded =>
    obtain ⟨stream, staged, -, -, rfl, events⟩ := load_of_ok read
    rw [events, changes_append, changes_append, (silent_of_isMatching isMatching_of_ofStaged).1, changes_placeAll]
    exact List.append_nil _

/-- An operation notes its changes, each once and in order; so one that is rejected notes none. -/
theorem changes_perform (store : Store) (operation : Operation) :
    changes (perform store operation) = (store.perform operation).changes := by
  cases operation with
  | append rule table chain => exact changes_edit store rfl
  | insert rule table chain index => exact changes_edit store rfl
  | overwrite rule table chain index => exact changes_edit store rfl
  | update raw table chain index =>
    have matching := (silent_of_isMatching (@isMatching_of_newRule store.grammar ⟨some table, some chain⟩ raw)).1
    rw [perform, update, changes_append, createRule, matching]
    exact changes_edit store rfl
  | delete table chain index =>
    rw [perform, delete, Store.perform, Store.perform?]
    cases store.delete? table chain index with
    | none => rfl
    | some edit => exact changes_storeChanged edit.changes
  | flush table chain => exact changes_storeChanged (store.flush table chain).changes
  | load origin => exact changes_load store origin

/-- The events of a run note the changes of all its edits, each once and in order. -/
theorem changes_performAll (store : Store) (operations : List Operation) :
    changes (performAll store operations) = (store.history operations).flatMap Edit.changes := by
  induction operations generalizing store with
  | nil => rfl
  | cons operation operations ih =>
    rw [performAll, Store.history, changes_append, changes_perform, ih, List.flatMap_append, Store.changes_edits]

/-- A load that succeeds notes each rule that it read as a change or as skipped. -/
theorem load_noted {store : Store} {origin : Origin} {loaded : Loaded} (read : store.load origin = .ok loaded) :
    ∃ stream staged, origin = .stream stream ∧
      PacketFilter.stage store.grammar none 1 (Lines.ofStream stream).texts = .ok staged ∧
      (changes (load store origin)).length = loaded.count ∧
      skips (load store origin) =
        (staged.filter fun one => one.landing?.isNone).map (fun one => (one.line, one.rule.text)) ∧
      loaded.count + (skips (load store origin)).length = staged.length := by
  obtain ⟨stream, staged, rfl, staging, rfl, events⟩ := load_of_ok read
  have noted : changes (load store (.stream stream)) = (store.placeAll staged).changes := by
    rw [changes_load, Store.perform, Store.perform?, read]
    rfl
  have skipped : skips (load store (.stream stream)) =
      (staged.filter fun one => one.landing?.isNone).map fun one => (one.line, one.rule.text) := by
    rw [events, skips_append, skips_append, (silent_of_isMatching isMatching_of_ofStaged).2, skips_placeAll]
    exact List.append_nil _
  have either := staged.length_eq_countP_add_countP fun one => one.landing?.isSome
  refine ⟨stream, staged, rfl, staging, ?_, skipped, ?_⟩
  · rw [noted, (Store.changes_placeAll store staged).1]
  · rw [skipped, List.length_map, ← List.countP_eq_length_filter, Store.count_placeAll]
    simpa [← Option.isNone_iff_eq_none] using either.symm

end PacketFilter.Log
