import PacketFilter.Proofs.Store.Edited

/-!
# Saving and reading

A store that is saved and read into an empty one keeps, in every slot and in order, the rules in which
something is recognized, and every packet meets the same verdict. Main statements: `IsStock.isLegible`,
`reload_eq`, what is read, and `Reached.reload_sound`.
-/

namespace PacketFilter

open Grammar

/-! ## Lines of rules -/

namespace Rule

theorem Parsed.isWord {rule : Rule} {front : List Part} {clauses : List Clause} (h : Parsed rule front clauses) :
    ∀ word ∈ rule.parts.flatMap Part.words, IsWord word := by
  intro word member
  obtain ⟨part, inside, belongs⟩ := List.mem_flatMap.1 member
  exact h.toShape.isWord (h.parts_eq ▸ inside) word belongs

/-- The written form of a rule is one line. -/
theorem Parsed.oneLine {rule : Rule} {front : List Part} {clauses : List Clause} (h : Parsed rule front clauses) :
    '\n' ∉ rule.text.toList := by
  rw [text_eq_joinWords]
  exact Text.not_mem_joinWords h.isWord (by decide) (by decide)

end Rule

namespace Store

/-- A store is stock if its rules are read from texts with the stock grammar and belong to their slots. -/
structure IsStock (store : Store) : Prop where
  grammar_eq : store.grammar = stock
  rule_eq : ∀ {slot rule}, rule ∈ store.rules slot → ∃ preset raw, rule = Rule.new stock preset raw
  context_eq : ∀ {slot rule}, rule ∈ store.rules slot → rule.context = .ofSlot slot

theorem IsStock.parsed {store : Store} (h : store.IsStock) {slot : Slot} {rule : Rule} (member : rule ∈ store.rules slot) :
    ∃ front clauses, rule.Parsed front clauses := by
  obtain ⟨preset, raw, rfl⟩ := h.rule_eq member
  exact Rule.parsed_new preset raw

theorem IsStock.trim_text {store : Store} (h : store.IsStock) {slot : Slot} {rule : Rule}
    (member : rule ∈ store.rules slot) : Text.trim rule.text = rule.text := by
  obtain ⟨front, clauses, parsed⟩ := h.parsed member
  rw [Rule.text_eq_joinWords]
  exact Text.trim_joinWords parsed.isWord

theorem IsStock.isLegible {store : Store} (h : store.IsStock) : store.IsLegible := by
  have isEdited : store.IsEdited := by
    refine ⟨h.grammar_eq, fun member => ?_, h.context_eq⟩
    obtain ⟨preset, raw, rfl⟩ := h.rule_eq member
    exact .new preset raw
  refine isEdited.isLegible fun member => ?_
  obtain ⟨front, clauses, parsed⟩ := h.parsed member
  exact parsed.oneLine

/-- What a store becomes by saving and reading: the rules in which something is recognized, read again. -/
theorem reload_eq {store : Store} (h : store.IsStock) :
    ∃ loaded, store.reload = .ok loaded ∧ loaded.count = (Slot.all.flatMap store.kept).length ∧
      ∀ slot, loaded.store.rules slot = (store.kept slot).map fun rule => Rule.new stock (.ofSlot slot) rule.text := by
  obtain ⟨loaded, read, count, rules⟩ := h.isLegible.reload_eq
  refine ⟨loaded, read, count, fun slot => ?_⟩
  rw [rules slot]
  refine List.map_congr_left fun rule member => ?_
  rw [readBack, h.trim_text (List.mem_of_mem_filter member), h.grammar_eq]

/-! ## Verdicts -/

theorem findSome?_kept (store : Store) (slot : Slot) (packet : Packet) :
    ((store.kept slot).findSome? fun rule => rule.run? packet) =
      (store.rules slot).findSome? fun rule => rule.run? packet := by
  rw [kept]
  induction store.rules slot with
  | nil => rfl
  | cons rule rules ih =>
    by_cases nothing : rule.elements = []
    · simpa [nothing, Rule.run?_of_elements_eq_nil nothing packet] using ih
    · rw [List.filter_cons_of_pos (by simpa using nothing), List.findSome?_cons, List.findSome?_cons, ih]

/-! ## Saving again -/

theorem IsStock.parts_reread {store : Store} (h : store.IsStock) {slot : Slot} {rule : Rule}
    (member : rule ∈ store.rules slot) :
    let again := Rule.new stock (.ofSlot slot) rule.text
    again.context = rule.context ∧ again.parts.Perm rule.parts ∧ (∀ packet, again.run? packet = rule.run? packet) ∧
      (Rule.new stock (.ofSlot slot) again.text).parts = again.parts := by
  obtain ⟨front, clauses, parsed⟩ := h.parsed member
  have own := h.context_eq member
  have context : (Rule.new stock rule.context rule.text).context = rule.context := by
    rw [parsed.reread.2, own]
    exact Context.settled_of_holds rfl rfl slot.holds
  have stable := parsed.parts_reread_reread
  simp only [context] at stable
  rw [← own]
  exact ⟨context, parsed.perm_reread, parsed.run?_reread, stable⟩

/-- A store is settled if something is recognized in each of its rules and the written form of each is read as
    a rule of the same written form. -/
structure IsSettled (store : Store) : Prop extends IsStock store where
  recognized : ∀ {slot rule}, rule ∈ store.rules slot → rule.elements ≠ []
  stable : ∀ {slot rule}, rule ∈ store.rules slot → (Rule.new stock (.ofSlot slot) rule.text).text = rule.text

theorem grammar_reload {store : Store} {loaded : Loaded} (read : store.reload = .ok loaded) :
    loaded.store.grammar = store.grammar := by
  obtain ⟨-, staged, -, -, -, rfl⟩ := load_eq_ok_iff.1 read
  exact grammar_placeAll (new store.grammar) staged

/-- What is read from a saved store is settled. -/
theorem IsStock.isSettled_reload {store : Store} (h : store.IsStock) {loaded : Loaded} (read : store.reload = .ok loaded) :
    loaded.store.IsSettled := by
  obtain ⟨_, same, -, rules⟩ := reload_eq h
  obtain rfl := Except.ok.inj (read.symm.trans same)
  have origin {slot : Slot} {again : Rule} (member : again ∈ loaded.store.rules slot) :
      ∃ rule ∈ store.rules slot, rule.elements ≠ [] ∧ again = Rule.new stock (.ofSlot slot) rule.text := by
    rw [rules slot] at member
    obtain ⟨rule, inside, rfl⟩ := List.mem_map.1 member
    obtain ⟨inside, recognized⟩ := List.mem_filter.1 inside
    exact ⟨rule, inside, by simpa using recognized, rfl⟩
  refine ⟨⟨(grammar_reload read).trans h.grammar_eq, ?_, ?_⟩, ?_, ?_⟩
  · intro slot again member
    obtain ⟨rule, -, -, rfl⟩ := origin member
    exact ⟨_, _, rfl⟩
  · intro slot again member
    obtain ⟨rule, inside, -, rfl⟩ := origin member
    exact (h.parts_reread inside).1.trans (h.context_eq inside)
  · intro slot again member nothing
    obtain ⟨rule, inside, recognized, rfl⟩ := origin member
    have perm := (h.parts_reread inside).2.1
    have empty : (Rule.new stock (.ofSlot slot) rule.text).parts = [] := by
      simp [Rule.parts, nothing, PacketFilter.parts]
    rw [empty, List.nil_perm] at perm
    exact recognized (by simpa [Rule.parts, PacketFilter.parts] using perm)
  · intro slot again member
    obtain ⟨rule, inside, -, rfl⟩ := origin member
    rw [Rule.text, (h.parts_reread inside).2.2.2]
    rfl

theorem saved_eq_of_texts {a b : Store} (same : ∀ slot, (a.rules slot).map Rule.text = (b.rules slot).map Rule.text) :
    a.saved = b.saved := by
  have lines (slot : Slot) : a.savedLines slot = b.savedLines slot := by
    have texts := same slot
    rw [savedLines, savedLines]
    cases ofA : a.rules slot <;> cases ofB : b.rules slot <;> simp_all
  rw [saved, saved, funext lines]

/-- A settled store is read back with the same written form. -/
theorem IsSettled.saved_reload {store : Store} (h : store.IsSettled) {loaded : Loaded}
    (read : store.reload = .ok loaded) : loaded.store.saved = store.saved := by
  obtain ⟨_, same, -, rules⟩ := reload_eq h.toIsStock
  obtain rfl := Except.ok.inj (read.symm.trans same)
  refine saved_eq_of_texts fun slot => ?_
  have all : store.kept slot = store.rules slot :=
    List.filter_eq_self.2 fun rule member => by simpa using h.recognized member
  rw [rules slot, all, List.map_map]
  exact List.map_congr_left fun rule member => h.stable member

/-- The store that is left after saving and reading so many times. -/
def reloads (store : Store) : Nat → Except LoadError Store
  | 0 => .ok store
  | times + 1 => do
    let loaded ← store.reload
    loaded.store.reloads times

theorem IsSettled.saved_reloads {store : Store} (h : store.IsSettled) (times : Nat) :
    ∃ later, store.reloads times = .ok later ∧ later.saved = store.saved := by
  induction times generalizing store with
  | zero => exact ⟨store, rfl, rfl⟩
  | succ times ih =>
    obtain ⟨loaded, read, -, -⟩ := reload_eq h.toIsStock
    obtain ⟨later, reads, same⟩ := ih (h.toIsStock.isSettled_reload read)
    refine ⟨later, ?_, same.trans (h.saved_reload read)⟩
    rw [reloads, read]
    exact reads

/-! ## Stores that a run reaches -/

theorem Reached.isStock {store : Store}
    (reached : Reached (fun rule => ∃ preset raw, rule = Rule.new stock preset raw) stock store) : store.IsStock := by
  refine ⟨reached.grammar_eq, fun member => ?_, fun member => (reached.admitted member).2⟩
  rcases (reached.admitted member).1 with given | read
  · exact given
  · exact read

/-- Saving a store and reading it changes no verdict: it succeeds, the rules in which something is recognized are
    read in order and with their meaning, and from then on the saved text stays the same. -/
theorem Reached.reload_sound {store : Store}
    (reached : Reached (fun rule => ∃ preset raw, rule = Rule.new stock preset raw) stock store) :
    (store.write (.writer none)).error? = none ∧ ∃ loaded, store.reload = .ok loaded ∧
      loaded.count = (Slot.all.flatMap store.kept).length ∧
      (∀ slot, List.Forall₂ (fun again rule => again.context = rule.context ∧ again.parts.Perm rule.parts ∧
        ∀ packet, again.run? packet = rule.run? packet) (loaded.store.rules slot) (store.kept slot)) ∧
      (∀ slot packet, (evaluate? (loaded.store.rules slot) packet).map Prod.snd =
        (evaluate? (store.rules slot) packet).map Prod.snd) ∧
      ∀ times, ∃ later, loaded.store.reloads times = .ok later ∧ later.saved = loaded.store.saved := by
  have isStock := reached.isStock
  obtain ⟨loaded, read, count, rules⟩ := reload_eq isStock
  have related (slot : Slot) : List.Forall₂ (fun again rule => again.context = rule.context ∧
      again.parts.Perm rule.parts ∧ ∀ packet, again.run? packet = rule.run? packet) (loaded.store.rules slot)
      (store.kept slot) := by
    rw [rules slot, List.forall₂_map_left_iff, List.forall₂_same]
    intro rule member
    obtain ⟨context, perm, verdicts, -⟩ := isStock.parts_reread (List.mem_of_mem_filter member)
    exact ⟨context, perm, verdicts⟩
  refine ⟨rfl, loaded, read, count, related, fun slot packet => ?_, (isStock.isSettled_reload read).saved_reloads⟩
  rw [map_snd_evaluate?, map_snd_evaluate?, ← findSome?_kept store]
  exact findSome?_of_forall₂ ((related slot).imp fun _ _ alike => alike.2.2 packet)

/-- Of a rule with swapped ports and one in which nothing is recognized, the first is read back. -/
theorem Reached.reload_two_rules :
    let first := Rule.new stock .unknown "iptables -t FILTER -A INPUT -p tcp --sport --dport 80 22 more"
    let second := Rule.new stock (.ofSlot .filterInput) "nothing"
    let one := ((Store.new stock).perform (.append first .filter .input)).store
    let two := (one.perform (.insert second .filter .input 0)).store
    two.size = 2 ∧ ∃ loaded, two.reload = .ok loaded ∧ loaded.count = 1 := by
  intro first second one two
  have reached : Reached (fun rule => ∃ preset raw, rule = Rule.new stock preset raw) stock two :=
    (Reached.new.step fun rule given => ⟨_, _, (Option.some.inj given).symm⟩).step
      fun rule given => ⟨_, _, (Option.some.inj given).symm⟩
  obtain ⟨-, loaded, read, count, -⟩ := reached.reload_sound
  exact ⟨by decide +kernel, loaded, read, count.trans (by decide +kernel)⟩

end Store

end PacketFilter
