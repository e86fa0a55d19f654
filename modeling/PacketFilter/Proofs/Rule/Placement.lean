import PacketFilter.Proofs.Rule.Editing

/-!
# The slots of edited rules

Edits cannot move a rule: the chain that an edited rule names is the one that its text has resolved, and its
written form, read for the slot of the rule, resolves no other. Main statements: `Revised.chain?_of_mem` and
`Revised.context_reread`.
-/

namespace PacketFilter

namespace Rule

open Grammar

/-- The parts of an edited rule: some of its header, and conditions and actions behind them. -/
theorem Descends.behind {rule : Rule} {front : List Part} {clauses : List Clause} (h : Descends rule front clauses) :
    ∃ kept later, rule.parts = kept ++ later ∧ kept.Sublist front ∧ ∀ part ∈ later, part.IsBehind := by
  obtain ⟨kept, later, split, inFront, inClauses⟩ := h.split
  refine ⟨kept, later, split, inFront, fun part member => ?_⟩
  obtain ⟨other, inside, same⟩ := List.mem_map.1 (inClauses.subset (List.mem_map_of_mem member))
  obtain ⟨clause, -, own⟩ := List.mem_flatMap.1 inside
  exact Part.isBehind_form.1 (same ▸ Part.isBehind_form.2 (isBehind_of_mem own))

/-- The words of a part behind the header start with one of a flag. -/
theorem words_eq_cons_of_isBehind {part : Part} (behind : part.IsBehind) :
    ∃ word more, part.words = word :: more ∧ word ∈ flagWords := by
  cases part with
  | condition c given? =>
    have start : ∃ more, c.keyword = c.spelling.keyword :: more := by cases c <;> exact ⟨_, rfl⟩
    obtain ⟨more, start⟩ := start
    exact ⟨c.spelling.keyword, more ++ given?.toList, by rw [Part.words, Part.keyword, start]; rfl,
      keyword_mem_flagWords c⟩
  | action a given? => exact ⟨Action.jump.keyword, _, rfl, by decide⟩
  | _ => exact behind.elim

/-! ## Chains -/

/-- Parts that do not name a chain leave that of a context. -/
theorem chain?_foldl_resolve {parts : List Part} (unnamed : ∀ chain, .chain chain ∉ parts) (context : Context) :
    (parts.foldl Context.resolve context).chain? = context.chain? := by
  have nothing : parts.reverse.findSome? Part.chain? = none := by
    refine List.findSome?_eq_none_iff.2 fun part member => ?_
    cases part with
    | chain chain => exact absurd (List.mem_reverse.1 member) (unnamed chain)
    | _ => rfl
  rw [Context.chain?_foldl, nothing, Option.none_or]

/-- The first parts of a header are all of them if one of them names a chain. -/
theorem eq_headerParts_of_mem {parts : List Part} {table : Table} {command : Command} {chain named : Chain}
    (ahead : parts <+: headerParts table command chain) (member : .chain named ∈ parts) :
    parts = headerParts table command chain := by
  obtain ⟨rest, whole⟩ := ahead
  rcases List.eq_nil_or_concat rest with rfl | ⟨others, last, rfl⟩
  · rw [← whole, List.append_nil]
  · -- The chain is the last part of the header, so it is not among those in front of the last one.
    rw [List.concat_eq_append, ← List.append_assoc] at whole
    have ends : (parts ++ others) ++ [last] = [.start "iptables", .table table, .command command] ++ [.chain chain] := whole
    have split := (List.append_inj' ends rfl).1
    have inside : Part.chain named ∈ parts ++ others := List.mem_append_left _ member
    simp [split] at inside

/-- An edited rule names no chain but the one that its text has resolved. -/
theorem Revised.chain?_of_mem {rule : Rule} (revised : Revised stock rule) {chain : Chain}
    (member : .chain chain ∈ rule.parts) : rule.context.settled.chain? = some chain := by
  obtain ⟨front, clauses, origin⟩ := revised.descends
  obtain ⟨kept, later, split, inFront, behind⟩ := origin.behind
  have inside : .chain chain ∈ front := by
    rcases List.mem_append.1 (split ▸ member) with inKept | inLater
    · exact inFront.subset inKept
    · exact (behind _ inLater).elim
  obtain ⟨table, command, named, ahead⟩ := origin.leads.isPrefix
  have whole := eq_headerParts_of_mem ahead inside
  obtain rfl : chain = named := by simpa [whole, headerParts] using inside
  rw [← origin.resolved, whole]
  rfl

/-! ## Reading the written form -/

theorem head?_texts_scan {parts : List Part} (behind : ∀ part ∈ parts, part.IsBehind) :
    ∀ word ∈ (parts.flatMap fun part => Token.texts (Token.scan part.display)).head?, word ∈ flagWords := by
  intro word head
  cases parts with
  | nil => simp at head
  | cons part parts =>
    obtain ⟨first, more, words, isFlag⟩ := words_eq_cons_of_isBehind (behind part (by simp))
    have isWord : ∀ word ∈ flagWords, IsWord word := by decide
    rw [List.flatMap_cons, Part.display, words, Token.texts_scan_joinWords_eq_flatMap, List.flatMap_cons,
      Token.texts_scan_of_isWord (isWord first isFlag)] at head
    exact Option.some.inj head ▸ isFlag

/-- The words of an edited rule, read for the slot of the rule, resolve that slot. -/
theorem Revised.context_reread {rule : Rule} (revised : Revised stock rule) {slot : Slot}
    (own : rule.context = .ofSlot slot) {raw : String}
    (same : Token.texts (Token.scan raw) = Token.texts (Token.scan rule.text)) :
    (Rule.new stock (.ofSlot slot) raw).context = .ofSlot slot := by
  obtain ⟨front, clauses, origin⟩ := revised.descends
  obtain ⟨kept, later, split, inFront, behind⟩ := origin.behind
  obtain ⟨table, command, chain, ahead⟩ := origin.leads.isPrefix
  have settled : (Context.ofSlot slot).settled = .ofSlot slot := Context.settled_of_holds rfl rfl slot.holds
  have resolved : front.foldl Context.resolve (.ofSlot slot) = .ofSlot slot := by
    simpa only [own, settled] using origin.resolved
  rw [(new_stock (.ofSlot slot) raw).2, settled, (parse_stock (.ofSlot slot) (Token.scan raw)).1]
  by_cases whole : (walk header (.ofSlot slot) (Token.scan raw)).covered = 4
  · -- A whole header is read from the words of the header only, and then it is that of the rule.
    have typed : Token.texts (Token.scan raw) =
        kept.flatMap Part.words ++ later.flatMap fun part => Token.texts (Token.scan part.display) := by
      rw [same, texts_scan_text, split, List.flatMap_append]
      refine congrArg (· ++ _) (List.flatMap_congr fun part member => ?_)
      exact texts_scan_display (isWord_headerParts (ahead.subset (inFront.subset member)))
    obtain ⟨flag, name, word, named, more, shape, spells, other, accepts⟩ := words_of_whole whole
    have all := eq_headerParts (inFront.trans ahead.sublist) (head?_texts_scan behind) (typed.symm.trans shape) spells
      accepts
    obtain rfl : kept = front := inFront.eq_of_length_le (all ▸ ahead.length_le)
    have leads : Leads header (.ofSlot slot) kept := by simpa only [own, settled] using origin.leads
    have length : kept.length = header.length := by rw [all]; rfl
    rw [(walk_of_leads header_fixed leads typed (.inl length)).2.2.2, resolved]
  · obtain ⟨leads, -, resolves⟩ := walk_leads header_fixed (.ofSlot slot) (Token.scan raw)
    have unnamed : ∀ chain,
        .chain chain ∉ PacketFilter.parts (walk header (.ofSlot slot) (Token.scan raw)).elements := by
      intro named inside
      obtain ⟨_, _, _, before⟩ := leads.isPrefix
      apply whole
      rw [covered_header, eq_headerParts_of_mem before inside]
      rfl
    rw [resolves]
    exact Context.eq_of_fields (Context.table?_foldl_resolve rfl _) (chain?_foldl_resolve unnamed _)

end Rule

end PacketFilter
