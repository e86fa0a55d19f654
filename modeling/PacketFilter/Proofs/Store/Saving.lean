import Mathlib.Data.List.Basic
import PacketFilter.Proofs.Store.Run
import PacketFilter.Proofs.Text.Lines
import PacketFilter.Proofs.Text.Words

/-!
# Reading a saved store

What an empty store becomes by reading what another one writes, if every rule is written on one line and what
is read there belongs to the slot of the rule. Main statements: `stage_saved`, what is read from the saved text,
and `IsLegible.reload_eq`, where it goes.
-/

namespace PacketFilter

/-! ## Lines of a saved store -/

theorem Text.trim_line (text : String) : Text.trim (Text.line text) = Text.trim text := by
  rw [Text.trim, Text.trim, Text.line, String.toList_ofList, Text.withoutReturn]
  split
  · rename_i ret
    have blank : Text.isBlank '\r' = true := by decide
    obtain ⟨front, spread⟩ := List.getLast?_eq_some_iff.1 ret
    rw [spread, List.dropLast_concat, Text.trimmed_append_blank _ blank]
  · rfl

/-- A carriage return at the end of a line does not count for its kind. -/
theorem SavedLine.ofText_line (text : String) : SavedLine.ofText (Text.line text) = SavedLine.ofText text := by
  simp only [SavedLine.ofText, Text.trim_line]

theorem savedLine_header (slot : Slot) : SavedLine.ofText ("#" ++ slot.name) = .header ("#" ++ slot.name) := by
  cases slot <;> decide

theorem parse_header (line : Nat) (slot : Slot) : Header.parse line ("#" ++ slot.name) = .ok slot := by
  cases slot <;> rfl

/-- What is staged depends on the kinds of the lines only. -/
theorem stage_map_line (grammar : Grammar) (header? : Option Slot) (line : Nat) (texts : List String) :
    stage grammar header? line (texts.map Text.line) = stage grammar header? line texts := by
  induction texts generalizing header? line with
  | nil => rfl
  | cons text texts ih => simp only [List.map_cons, stage, SavedLine.ofText_line, ih]

namespace Store

/-- The rules of a slot in which something is recognized. -/
def kept (store : Store) (slot : Slot) : List Rule := (store.rules slot).filter fun rule => !rule.elements.isEmpty

/-- The store that is read, into an empty one, from what a store writes. -/
def reload (store : Store) : Except LoadError Loaded :=
  (new store.grammar).load (.stream ⟨(store.write (.writer none)).bytes, none⟩)

/-- The rule that is read, below the header of a slot, from the line of a rule. -/
def readBack (store : Store) (slot : Slot) (rule : Rule) : Rule :=
  Rule.new store.grammar (.ofSlot slot) (Text.trim rule.text)

/-- A store is legible if each rule is written on one line, which is blank only if nothing is recognized in the
    rule, and what is read there belongs to the slot of the rule. -/
structure IsLegible (store : Store) : Prop where
  oneLine : ∀ {slot rule}, rule ∈ store.rules slot → '\n' ∉ rule.text.toList
  kind : ∀ {slot rule}, rule ∈ store.rules slot →
    SavedLine.ofText rule.text = if rule.elements = [] then .blank else .rule (Text.trim rule.text)
  context_eq : ∀ {slot rule}, rule ∈ store.rules slot → (store.readBack slot rule).context = .ofSlot slot

theorem lines_saved {store : Store} (h : store.IsLegible) :
    Text.lines store.saved = (Slot.all.flatMap store.savedLines).map Text.line := by
  refine Text.lines_unlines fun line member => ?_
  obtain ⟨slot, -, member⟩ := List.mem_flatMap.1 member
  unfold savedLines at member
  split at member
  · simp at member
  · rcases List.mem_cons.1 member with rfl | member
    · cases slot <;> decide
    · obtain ⟨rule, inside, rfl⟩ := List.mem_map.1 member
      exact h.oneLine inside

theorem rule_ofText (grammar : Grammar) (slot : Slot) (line : Nat) (text : String) :
    (Staged.ofText grammar (some slot) line text).rule = Rule.new grammar (.ofSlot slot) text := by
  simp only [Staged.ofText, Option.map_some, Option.getD_some]

/-- A rule that is read below a header lands in its slot or nowhere. -/
theorem landing?_ofText (grammar : Grammar) (slot : Slot) (line : Nat) (text : String) :
    (Staged.ofText grammar (some slot) line text).landing? =
      if (Rule.new grammar (.ofSlot slot) text).context = .ofSlot slot then some slot else none := by
  unfold Staged.landing?
  rw [Staged.slot?, Staged.ofText, Option.some_or, Option.filter_some]
  simp only [decide_eq_true_eq]
  rfl

/-- What is staged for the written forms of rules below the header of their slot. -/
theorem stage_texts {store : Store} (h : store.IsLegible) {slot : Slot} {rules : List Rule}
    (held : ∀ rule ∈ rules, rule ∈ store.rules slot) {line : Nat} {more : List String} {staged : List Staged}
    (later : stage store.grammar (some slot) (line + rules.length) more = .ok staged) :
    ∃ first, stage store.grammar (some slot) line (rules.map Rule.text ++ more) = .ok (first ++ staged) ∧
      first.map (fun one => (one.landing?, one.rule)) =
        (rules.filter fun rule => !rule.elements.isEmpty).map fun rule => (some slot, store.readBack slot rule) := by
  induction rules generalizing line with
  | nil => exact ⟨[], later, rfl⟩
  | cons rule rules ih =>
    have own : rule ∈ store.rules slot := held rule (by simp)
    have position : line + (rule :: rules).length = line + 1 + rules.length := by
      rw [List.length_cons]
      omega
    rw [position] at later
    obtain ⟨first, read, meaning⟩ := ih (fun other member => held other (by simp [member])) later
    -- A rule in which nothing is recognized is written as an empty line.
    by_cases nothing : rule.elements = []
    · refine ⟨first, ?_, by simpa [nothing] using meaning⟩
      rw [List.map_cons, List.cons_append, stage_blank _ _ _ _ ((h.kind own).trans (if_pos nothing))]
      exact read
    · refine ⟨.ofText store.grammar (some slot) line (Text.trim rule.text) :: first, ?_, ?_⟩
      · rw [List.map_cons, List.cons_append, stage_rule _ _ _ _ ((h.kind own).trans (if_neg nothing)), read]
        rfl
      · rw [List.filter_cons_of_pos (by simpa using nothing), List.map_cons, List.map_cons, meaning,
          landing?_ofText, rule_ofText, ← readBack, if_pos (h.context_eq own)]

/-- What is staged for a saved store: the rules in which something is recognized, slot by slot. -/
theorem stage_saved {store : Store} (h : store.IsLegible) (slots : List Slot) (header? : Option Slot) (line : Nat) :
    ∃ staged, stage store.grammar header? line (slots.flatMap store.savedLines) = .ok staged ∧
      staged.map (fun one => (one.landing?, one.rule)) =
        slots.flatMap fun slot => (store.kept slot).map fun rule => (some slot, store.readBack slot rule) := by
  induction slots generalizing header? line with
  | nil => exact ⟨[], rfl, rfl⟩
  | cons slot slots ih =>
    rw [List.flatMap_cons, List.flatMap_cons, kept]
    cases held : store.rules slot with
    | nil =>
      obtain ⟨staged, read, meaning⟩ := ih header? line
      exact ⟨staged, by simpa [savedLines, held] using read, by simpa using meaning⟩
    | cons rule rules =>
      obtain ⟨staged, read, meaning⟩ := ih (some slot) (line + 1 + (rule :: rules).length)
      obtain ⟨first, together, firstMeaning⟩ := stage_texts h (fun other member => held ▸ member) read
      refine ⟨first ++ staged, ?_, by rw [List.map_append, firstMeaning, meaning]⟩
      rw [savedLines, held]
      show stage store.grammar header? line (("#" ++ slot.name) :: (_ ++ _)) = _
      rw [stage_header _ _ _ _ (savedLine_header slot), parse_header]
      simpa only [Except.bind] using together

/-- What a legible store becomes by saving and reading: the rules in which something is recognized, read again. -/
theorem IsLegible.reload_eq {store : Store} (h : store.IsLegible) :
    ∃ loaded, store.reload = .ok loaded ∧ loaded.count = (Slot.all.flatMap store.kept).length ∧
      ∀ slot, loaded.store.rules slot = (store.kept slot).map (store.readBack slot) := by
  obtain ⟨staged, read, meaning⟩ := stage_saved h Slot.all none 1
  have lines := Text.ofStream_ofText store.saved
  rw [lines_saved h] at lines
  have loads : store.reload = .ok ((new store.grammar).placeAll staged) := by
    rw [reload, load_eq_ok_iff]
    exact ⟨.ofText store.saved, staged, rfl, by rw [lines]; exact (stage_map_line ..).trans read, by rw [lines], rfl⟩
  refine ⟨_, loads, ?_, fun slot => ?_⟩
  · have landed : (staged.map fun one => (one.landing?, one.rule)).countP (fun pair => pair.1.isSome) =
        (Slot.all.flatMap store.kept).length := by
      rw [meaning, List.countP_eq_length.2, List.length_flatMap, List.length_flatMap]
      · simp only [List.length_map]
      · intro pair member
        obtain ⟨place, -, member⟩ := List.mem_flatMap.1 member
        obtain ⟨rule, -, rfl⟩ := List.mem_map.1 member
        rfl
    rw [count_placeAll, ← landed, List.countP_map]
    rfl
  · have landed : ((staged.map fun one => (one.landing?, one.rule)).filter fun pair => pair.1 = some slot).map Prod.snd =
        (store.kept slot).map (store.readBack slot) := by
      rw [meaning]
      cases slot <;> simp [Slot.all, List.filter_map, Function.comp_def]
    have empty : (new store.grammar).rules slot = [] := SlotMap.get_const [] slot
    rw [rules_placeAll, empty, List.nil_append, ← landed, List.filter_map, List.map_map]
    rfl

end Store

end PacketFilter
