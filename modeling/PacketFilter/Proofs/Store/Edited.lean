import PacketFilter.Proofs.Rule.Placement
import PacketFilter.Proofs.Store.Saving

/-!
# Stores of edited rules

Whatever is done with a store, its rules stay in the slots that they were read for, also when they were edited.
Main statements: `Reached.consistent`, that every rule names its slot, and `Reached.reload_edited`, that a store
whose values are written on one line is read back slot by slot.
-/

namespace PacketFilter

open Grammar

/-! ## Lines of edited rules -/

namespace Rule

theorem head?_headerParts {table : Table} {command : Command} {chain : Chain} {part : Part}
    (member : part ∈ headerParts table command chain) : ∀ word ∈ part.words, word.toList.head? ≠ some '#' := by
  rcases mem_headerParts.1 member with rfl | rfl | rfl | rfl
  · decide
  · cases table <;> decide
  · cases command <;> decide
  · cases chain <;> decide

/-- The written form of an edited rule starts with a word of its header or of a flag. -/
theorem Revised.head?_text {rule : Rule} (revised : Revised stock rule) (recognized : rule.elements ≠ []) :
    ∃ c, rule.text.toList.head? = some c ∧ Text.isBlank c = false ∧ c ≠ '#' := by
  obtain ⟨front, clauses, origin⟩ := revised.descends
  obtain ⟨kept, later, split, inFront, behind⟩ := origin.behind
  obtain ⟨table, command, chain, ahead⟩ := origin.leads.isPrefix
  have nonempty : rule.parts ≠ [] := by simpa [Rule.parts, PacketFilter.parts] using recognized
  obtain ⟨first, rest, parts⟩ := List.exists_cons_of_ne_nil nonempty
  -- The first part is one of the header, or the header is gone and it is one of a flag.
  have opens : ∃ word more, first.words = word :: more ∧ IsWord word ∧ word.toList.head? ≠ some '#' := by
    rcases List.mem_append.1 (split ▸ parts ▸ List.mem_cons_self : first ∈ kept ++ later) with inKept | inLater
    · obtain ⟨word, more, words⟩ := List.exists_cons_of_ne_nil (Part.words_ne_nil first)
      have own : word ∈ first.words := words ▸ List.mem_cons_self
      have inHeader := ahead.subset (inFront.subset inKept)
      exact ⟨word, more, words, isWord_headerParts inHeader word own, head?_headerParts inHeader word own⟩
    · obtain ⟨word, more, words, isFlag⟩ := words_eq_cons_of_isBehind (behind first inLater)
      have proper : ∀ word ∈ flagWords, IsWord word ∧ word.toList.head? ≠ some '#' := by decide
      exact ⟨word, more, words, proper word isFlag⟩
  obtain ⟨word, more, words, isWord, other⟩ := opens
  obtain ⟨c, cs, spread⟩ := List.exists_cons_of_ne_nil (by simpa using isWord.1 : word.toList ≠ [])
  refine ⟨c, ?_, isWord.2 c (spread ▸ List.mem_cons_self), by simpa [spread] using other⟩
  rw [text_eq_joinWords, parts, List.flatMap_cons, words, List.cons_append, Text.head?_joinWords word _ isWord.1, spread,
    List.head?_cons]

/-- The line of an edited rule is neither blank nor a header, unless the rule has no elements. -/
theorem Revised.savedLine {rule : Rule} (revised : Revised stock rule) :
    SavedLine.ofText rule.text = if rule.elements = [] then .blank else .rule (Text.trim rule.text) := by
  by_cases nothing : rule.elements = []
  · have empty : rule.text = "" := by simp [text, Rule.parts, nothing, PacketFilter.parts]
    rw [if_pos nothing, empty]
    decide
  · obtain ⟨c, head, solid, other⟩ := revised.head?_text nothing
    obtain ⟨rest, spread⟩ := List.head?_eq_some_iff.1 (Text.head?_trimmed head solid)
    rw [if_neg nothing]
    simp [SavedLine.ofText, Text.trim, spread, other]

/-- The words of an edited rule have a line feed only if a value has one. -/
theorem Revised.oneLine {rule : Rule} (revised : Revised stock rule)
    (values : ∀ part ∈ rule.parts, ∀ value ∈ part.value?, '\n' ∉ value.toList) : '\n' ∉ rule.text.toList := by
  obtain ⟨front, clauses, origin⟩ := revised.descends
  obtain ⟨kept, later, split, inFront, behind⟩ := origin.behind
  obtain ⟨table, command, chain, ahead⟩ := origin.leads.isPrefix
  rw [text_eq_joinWords]
  intro inside
  rcases Text.mem_joinWords inside with space | ⟨word, member, feed⟩
  · exact absurd space (by decide)
  · obtain ⟨part, isPart, isWord⟩ := List.mem_flatMap.1 member
    have solid {word : String} (isWord : IsWord word) : '\n' ∉ word.toList := fun feed => by
      simpa using (isWord.2 _ feed).symm.trans (by decide : Text.isBlank '\n' = true)
    rcases List.mem_append.1 isWord with isKeyword | isValue
    · refine solid ?_ feed
      rcases List.mem_append.1 (split ▸ isPart) with inKept | inLater
      · exact isWord_headerParts (ahead.subset (inFront.subset inKept)) word isWord
      · exact isWord_keyword (behind part inLater) word isKeyword
    · exact values part isPart word (Option.mem_toList.1 isValue) feed

end Rule

namespace Store

/-! ## Stores of edited rules -/

/-- The rules of a store were read from texts, perhaps edited, and belong to their slots. -/
structure IsEdited (store : Store) : Prop where
  grammar_eq : store.grammar = stock
  revised : ∀ {slot rule}, rule ∈ store.rules slot → rule.Revised stock
  context_eq : ∀ {slot rule}, rule ∈ store.rules slot → rule.context = .ofSlot slot

theorem Reached.isEdited {store : Store} (reached : Reached (Rule.Revised stock) stock store) : store.IsEdited := by
  refine ⟨reached.grammar_eq, fun member => ?_, fun member => (reached.admitted member).2⟩
  rcases (reached.admitted member).1 with given | ⟨preset, raw, rfl⟩
  · exact given
  · exact .new preset raw

theorem IsEdited.isLegible {store : Store} (h : store.IsEdited)
    (oneLine : ∀ {slot rule}, rule ∈ store.rules slot → '\n' ∉ rule.text.toList) : store.IsLegible where
  oneLine := oneLine
  kind member := (h.revised member).savedLine
  context_eq member := by
    rw [readBack, h.grammar_eq]
    exact (h.revised member).context_reread (h.context_eq member) (Token.texts_scan_trim _)

/-- Whatever is done with a store, it has the slots of the tables and their chains, and the rules of each of them
    have its table and its chain and name no other chain. -/
theorem Reached.consistent {store : Store} (reached : Reached (Rule.Revised stock) stock store) :
    (∀ table chain, (store.rules? table chain).isSome ↔ table.Holds chain) ∧
      ∀ table chain rules, store.rules? table chain = some rules → ∀ rule ∈ rules,
        rule.context.table? = some table ∧ rule.context.chain? = some chain ∧ table.Holds chain ∧
          ∀ part ∈ rule.parts, Component.isChain part = true → part.value? = some chain.name := by
  constructor
  · intro table chain
    rw [rules?, Option.isSome_map, Slot.isSome_of?_iff]
  · intro table chain rules held rule member
    obtain ⟨slot, found, rfl⟩ := Option.map_eq_some_iff.1 held
    obtain ⟨rfl, rfl⟩ := Slot.of?_eq_some_iff.1 found
    have own := reached.isEdited.context_eq member
    refine ⟨by rw [own]; rfl, by rw [own]; rfl, slot.holds, fun part inside isChain => ?_⟩
    cases part with
    | chain named =>
      have resolved := (reached.isEdited.revised member).chain?_of_mem inside
      rw [own, Context.settled_of_holds rfl rfl slot.holds] at resolved
      obtain rfl : slot.chain = named := Option.some.inj resolved
      rfl
    | _ => simp [Component.isChain] at isChain

/-- A rule that names the other table and an interface like the header of another slot stays in its own slot. -/
theorem Reached.consistent_edited :
    let rule := Rule.new stock ⟨some .nat, some .forward⟩ "iptables -t filter -A PREROUTING -i eth0 -j DROP"
    ∃ edited, rule.setValue? 4 "FORWARD\n#FILTER.INPUT" = some edited ∧
      let store := ((Store.new stock).perform (.append edited .nat .prerouting)).store
      store.size = 1 ∧ ∀ table chain rules, store.rules? table chain = some rules → ∀ rule ∈ rules,
        rule.context = ⟨some table, some chain⟩ ∧
          ∀ part ∈ rule.parts, Component.isChain part = true → part.value? = some chain.name := by
  intro rule
  obtain ⟨edited, edit, size⟩ : ∃ edited ∈ rule.setValue? 4 "FORWARD\n#FILTER.INPUT",
      ((Store.new stock).perform (.append edited .nat .prerouting)).store.size = 1 := by
    decide +kernel
  refine ⟨edited, edit, size, fun table chain rules held rule member => ?_⟩
  have reached : Reached (Rule.Revised stock) stock _ := Reached.new.append (.set (.new _ _) edit) .nat .prerouting
  obtain ⟨ownTable, ownChain, -, named⟩ := reached.consistent.2 table chain rules held rule member
  exact ⟨Context.eq_of_fields ownTable ownChain, named⟩

/-! ## Saving edited rules -/

/-- A store whose values are written on one line is read back slot by slot, so no rule comes to another slot. -/
theorem Reached.reload_edited {store : Store} (reached : Reached (Rule.Revised stock) stock store)
    (oneLine : ∀ slot, ∀ rule ∈ store.rules slot, ∀ part ∈ rule.parts, ∀ value ∈ part.value?, '\n' ∉ value.toList) :
    (store.write (.writer none)).error? = none ∧ ∃ loaded, store.reload = .ok loaded ∧ ∀ slot,
      loaded.store.rules slot = (store.kept slot).map (store.readBack slot) ∧
        (loaded.store.rules slot).length ≤ (store.rules slot).length := by
  have legible : store.IsLegible := reached.isEdited.isLegible fun {slot rule} member =>
    (reached.isEdited.revised member).oneLine (oneLine slot rule member)
  obtain ⟨loaded, read, -, rules⟩ := legible.reload_eq
  refine ⟨rfl, loaded, read, fun slot => ⟨rules slot, ?_⟩⟩
  rw [rules slot, List.length_map]
  exact List.length_filter_le ..

/-- A value that looks like a header is read back as long as it is on one line. -/
theorem Reached.reload_edited_interface :
    let rule := Rule.new stock (.ofSlot .filterInput) "iptables -t FILTER -A INPUT -i eth0 -j DROP"
    ∃ edited, rule.setValue? 4 "#NAT.INPUT\r" = some edited ∧
      let store := ((Store.new stock).perform (.append edited .filter .input)).store
      store.size = 1 ∧ ∃ loaded, store.reload = .ok loaded ∧
        ∀ slot, (loaded.store.rules slot).length ≤ (store.rules slot).length := by
  intro rule
  obtain ⟨edited, edit, size, oneLine⟩ : ∃ edited ∈ rule.setValue? 4 "#NAT.INPUT\r",
      let store := ((Store.new stock).perform (.append edited .filter .input)).store
      store.size = 1 ∧ ∀ slot ∈ Slot.all, ∀ rule ∈ store.rules slot, ∀ part ∈ rule.parts, ∀ value ∈ part.value?,
        '\n' ∉ value.toList := by
    decide +kernel
  have reached : Reached (Rule.Revised stock) stock _ := Reached.new.append (.set (.new _ _) edit) .filter .input
  obtain ⟨-, loaded, read, rules⟩ := reached.reload_edited fun slot => oneLine slot (by cases slot <;> decide)
  exact ⟨edited, edit, size, loaded, read, fun slot => (rules slot).2⟩

/-- A line feed in a value ends the line of its rule, and the rest of the value is read as further lines: as a header
    that no store has, or as a header and a rule below it. -/
theorem Reached.reload_line_feed :
    let rule := Rule.new stock (.ofSlot .filterInput) "iptables -t FILTER -A INPUT -i eth0 -j DROP"
    (∃ edited, rule.setValue? 4 "eth0\n#" = some edited ∧
      let store := ((Store.new stock).perform (.append edited .filter .input)).store
      Reached (Rule.Revised stock) stock store ∧ store.size = 1 ∧
        store.reload.map (·.count) = .error (.malformedHeader 3 "# -j DROP")) ∧
      ∃ edited, rule.setValue? 4 "eth0\n#NAT.INPUT\niptables -t NAT -A INPUT" = some edited ∧
        let store := ((Store.new stock).perform (.append edited .filter .input)).store
        Reached (Rule.Revised stock) stock store ∧ store.rules .natInput = [] ∧
          store.reload.map (fun loaded => (loaded.store.rules .natInput).length) = .ok 1 := by
  intro rule
  constructor
  · obtain ⟨edited, edit, size, fails⟩ : ∃ edited ∈ rule.setValue? 4 "eth0\n#",
        let store := ((Store.new stock).perform (.append edited .filter .input)).store
        store.size = 1 ∧ store.reload.map (·.count) = .error (.malformedHeader 3 "# -j DROP") := by
      decide +kernel
    exact ⟨edited, edit, Reached.new.append (.set (.new _ _) edit) .filter .input, size, fails⟩
  · obtain ⟨edited, edit, empty, moves⟩ : ∃ edited ∈ rule.setValue? 4 "eth0\n#NAT.INPUT\niptables -t NAT -A INPUT",
        let store := ((Store.new stock).perform (.append edited .filter .input)).store
        (store.rules .natInput).length = 0 ∧
          store.reload.map (fun loaded => (loaded.store.rules .natInput).length) = .ok 1 := by
      decide +kernel
    exact ⟨edited, edit, Reached.new.append (.set (.new _ _) edit) .filter .input, List.length_eq_zero_iff.1 empty, moves⟩

end Store

end PacketFilter
