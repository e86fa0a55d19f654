import Mathlib.Data.List.Perm.Subperm
import PacketFilter.Proofs.Grammar.FlagGroup
import PacketFilter.Proofs.Rule.Editing

/-!
# Suggestions

Every form that is suggested behind what was recognized leads to a whole rule: with words of the form among them, words
can be inserted into the written form, and the result is matched completely. Main statements: `mem_suggestions`, where
a suggestion comes from, and `completable_of_suggested`.
-/

namespace PacketFilter.Grammar

/-! ## Where suggestions come from -/

theorem parse_of_incomplete {context : Context} {tokens : List Token}
    (incomplete : (stock.parse context tokens).complete = false) :
    stock.parse context tokens = .ofAttempt (attempt context tokens stock.first) := by
  have chosen := parse_eq_ofAttempt context tokens
  rw [chosen] at incomplete ⊢
  by_cases partly : (attempt context tokens stock.first).IsComplete
  · rw [if_pos partly]
  · rw [if_neg partly] at incomplete ⊢
    split at incomplete
    · rename_i whole
      simp [Outcome.ofAttempt, whole] at incomplete
    · rename_i short
      rw [if_neg short]

/-- The components around the end of a header of which some are matched. -/
def around (covered : Nat) : List Component :=
  ((header ++ [Component.flags stockFlags]).drop (covered - 1)).take (covered - (covered - 1) + 2)

theorem around_walk (context : Context) (tokens : List Token) :
    ∀ component ∈ around (walk (header ++ [.flags stockFlags]) context tokens).covered,
      component ∈ around (walk header context tokens).covered := by
  intro component member
  rw [walk_stock] at member
  by_cases whole : (walk header context tokens).covered = 4
  · rw [if_pos whole] at member
    rw [whole]
    split at member
    · exact member
    · exact List.mem_cons_of_mem Component.chain member
  · rwa [if_neg whole] at member

/-- A suggestion is proposed by a component around the end of what is matched of the header. -/
theorem mem_suggestions {context : Context} {tokens : List Token} {form : String}
    (suggested : form ∈ (stock.parse context tokens).suggestions) :
    let outcome := stock.parse context tokens
    ∃ component ∈ around (walk header context tokens).covered, ∃ forms,
      component.proposals? (parts outcome.elements) outcome.context = some forms ∧ form ∈ forms := by
  intro outcome
  have incomplete : outcome.complete = false := by
    by_contra whole
    have done : (stock.choose context tokens).IsComplete := by
      simpa [outcome, parse, Outcome.ofAttempt] using whole
    simp [parse, Outcome.ofAttempt, done] at suggested
  have chosen : outcome = .ofAttempt (attempt context tokens stock.first) := parse_of_incomplete incomplete
  have suggested : form ∈ outcome.suggestions := suggested
  rw [chosen] at suggested ⊢
  simp only [Outcome.ofAttempt] at suggested ⊢
  split at suggested
  · cases suggested
  · rw [Signature.suggestions, Text.mem_sortedSet, List.mem_flatMap] at suggested
    obtain ⟨component, reached, proposed⟩ := suggested
    refine ⟨component, around_walk context tokens component reached, ?_⟩
    cases given : component.proposals? (parts (attempt context tokens stock.first).walk.elements)
        (attempt context tokens stock.first).walk.context with
    | none => simp [given] at proposed
    | some forms => exact ⟨forms, rfl, by simpa [given] using proposed⟩

/-! ## Forms of flags -/

namespace Flag

theorem produces_iff {flag : Flag} {c : Condition} (own : flag.condition? = some c) {part : Part} :
    flag.produces part = true ↔ ∃ given?, part = .condition c given? := by
  cases part with
  | condition d given? =>
    have test : flag.produces (.condition d given?) = (c == d) := by simp [produces, own]
    rw [test]
    constructor
    · intro same
      exact ⟨given?, by rw [beq_iff_eq.1 same]⟩
    · rintro ⟨_, same⟩
      cases same
      exact BEq.rfl
  | _ => simp [produces, own]

theorem mem_allProposals {matched : List Part} {flags : List Flag} {form : String} :
    form ∈ allProposals matched flags ↔ ∃ flag ∈ flags, form ∈ flag.proposals matched := by
  induction flags with
  | nil => simp [allProposals]
  | cons flag flags ih => simp [allProposals, ih]

/-- A flag without options proposes its forms unless it was matched. -/
theorem mem_proposals_iff {matched : List Part} {flag : Flag} (other : ∀ p, flag.condition? ≠ some (.protocol p))
    {form : String} : form ∈ flag.proposals matched ↔ matched.any flag.produces = false ∧ form ∈ flag.forms := by
  have alone : flag.proposals matched = if matched.any flag.produces then [] else flag.forms := by
    cases flag with
    | protocol p options => exact absurd rfl (other p)
    | _ => simp only [proposals]
  rw [alone]
  cases matched.any flag.produces <;> simp

/-- A flag proposes its own forms, or it is a protocol that was matched and proposes a port that was not. -/
theorem proposals_cases {matched : List Part} {flag : Flag} (member : flag ∈ stockFlags) {form : String}
    (proposed : form ∈ flag.proposals matched) :
    matched.any flag.produces = false ∧ form ∈ flag.forms ∨
      ∃ p side, p.hasPorts = true ∧ flag = .ofProtocol p ∧ matched.any flag.produces = true ∧
        matched.any (Flag.port side p).produces = false ∧ form ∈ (Flag.port side p).forms := by
  rcases stock_cases member with ⟨p, hasPorts, rfl⟩ | ⟨c, valued, own⟩ | rfl
  · have spread : (ofProtocol p).proposals matched = if matched.any (ofProtocol p).produces then
        allProposals matched [.port .source p, .port .destination p] else (ofProtocol p).forms := by
      simp [ofProtocol, hasPorts, proposals]
    rw [spread] at proposed
    cases isMatched : matched.any (ofProtocol p).produces with
    | false => exact .inl ⟨rfl, by simpa [isMatched] using proposed⟩
    | true =>
      rw [isMatched, if_pos rfl] at proposed
      obtain ⟨port, isPort, proposed⟩ := mem_allProposals.1 proposed
      rcases List.mem_pair.1 isPort with rfl | rfl
      · exact .inr ⟨p, .source, hasPorts, rfl, rfl, (mem_proposals_iff (by simp [condition?])).1 proposed⟩
      · exact .inr ⟨p, .destination, hasPorts, rfl, rfl, (mem_proposals_iff (by simp [condition?])).1 proposed⟩
  · refine .inl ((mem_proposals_iff fun p same => ?_).1 proposed)
    obtain rfl : c = .protocol p := Option.some.inj (own.symm.trans same)
    simp [Condition.valued] at valued
  · exact .inl ((mem_proposals_iff (by simp [condition?])).1 proposed)

end Flag

namespace Clause

theorem exists_value {c : Condition} (valued : c ∈ Condition.valued) : ∃ text, c.accepts text = true ∧ IsWord text := by
  rcases Condition.mem_valued.1 valued with rfl | rfl | rfl | rfl | rfl
  · exact ⟨"10.0.0.1", by decide, by decide⟩
  · exact ⟨"10.0.0.1", by decide, by decide⟩
  · exact ⟨"eth0", by decide, by decide⟩
  · exact ⟨"eth0", by decide, by decide⟩
  · exact ⟨"NEW", by decide, by decide⟩

/-- Every form of a flag begins a clause that is recognized. -/
theorem exists_of_form {flag : Flag} (member : flag ∈ stockFlags) {form : String} (isForm : form ∈ flag.forms) :
    ∃ clause : Clause, clause.Recognized ∧ clause.flag = flag ∧ Token.texts (Token.scan form) <+: clause.words := by
  -- A form joins the fixed words of the clause.
  have begins {clause : Clause} (recognized : clause.Recognized) {keyword : List String} (ahead : keyword <+: clause.words)
      (same : form = Text.joinWords keyword) : Token.texts (Token.scan form) <+: clause.words := by
    rw [same, Token.texts_scan_joinWords fun word member => recognized.words word (ahead.subset member)]
    exact ahead
  rcases Flag.stock_cases member with ⟨p, hasPorts, rfl⟩ | ⟨c, valued, own⟩ | rfl
  · have recognized : (protocol p []).Recognized := recognized_protocol ⟨hasPorts, by simp⟩ (by simp)
    refine ⟨protocol p [], recognized, rfl, begins recognized ⟨[], ?_⟩ (List.mem_singleton.1 isForm)⟩
    rw [words_protocol]
    rfl
  · obtain ⟨text, accepted, isWord⟩ := exists_value valued
    have recognized : (value c text).Recognized := recognized_value valued accepted isWord
    have keyword : ∀ c ∈ Condition.valued, c.keyword = [c.spelling.keyword] := by decide
    have ahead : c.keyword <+: (value c text).words := ⟨[text], by rw [keyword c valued, words_value valued]; rfl⟩
    refine ⟨value c text, recognized, ?_, begins recognized ahead (by simpa [Flag.forms, own] using isForm)⟩
    exact Flag.eq_of_condition? recognized.proper.flag_mem member (recognized.proper.condition?_flag.trans own.symm)
  · obtain ⟨a, -, same⟩ := List.mem_map.1 isForm
    -- An action that needs a target has one.
    let target? := a.option?.map fun _ => "10.0.0.1"
    have given : ∀ target ∈ target?, target = "10.0.0.1" := by
      intro target isTarget
      obtain ⟨_, -, same⟩ := Option.map_eq_some_iff.1 isTarget
      exact same.symm
    have recognized : (jump a target?).Recognized := by
      refine recognized_jump (by simp [Proper, target?]) (fun target isTarget => ?_) fun target isTarget => ?_
      · rw [given target isTarget]
        decide
      · rw [given target isTarget]
        decide
    have ahead : a.keyword <+: (jump a target?).words := ⟨target?.toList, by simp [words_jump, Action.keyword]⟩
    exact ⟨jump a target?, recognized, rfl, begins recognized ahead same.symm⟩

/-- A part that the flag of a clause produces is among the parts of the clause. -/
theorem Proper.any_produces {clause : Clause} (proper : clause.Proper) : clause.parts.any clause.flag.produces = true := by
  have produces := proper.condition?_flag
  cases clause with
  | protocol p ports => simp [parts, Flag.produces, produces, condition?]
  | value c text => simp [parts, Flag.produces, produces, condition?]
  | jump a target? => simp [parts, Flag.produces, produces, condition?]

end Clause

/-! ## Parts that can be inserted -/

/-- Parts can be inserted between given ones so that they make a whole rule, with words among those inserted. -/
def Completable (context : Context) (ps : List Part) (words : List String) : Prop :=
  ∃ front clauses before inserted after, Shape context front clauses ∧ front.length = 4 ∧ ps = before ++ after ∧
    front ++ Clause.allParts clauses = before ++ inserted ++ after ∧ words <:+: inserted.flatMap Part.words

theorem table?_resolve_table (context : Context) (table : Table) :
    (context.resolve (.table table)).table? = some (context.table?.getD table) := by
  cases own : context.table? <;> simp [Context.resolve, Component.named, own]

theorem leads_headerParts {context : Context} {table : Table} {command : Command} {chain : Chain}
    (holds : (context.table?.getD table).Holds chain) : Leads header context (headerParts table command chain) := by
  have listed : table ∈ Table.all := by cases table <;> decide
  exact .step rfl (.step listed (.step trivial (.step ⟨_, table?_resolve_table context table, holds⟩ (.stop [] _))))

theorem shape_headerParts {context : Context} {table : Table} (command : Command) {chain : Chain}
    (holds : (context.table?.getD table).Holds chain) : Shape context (headerParts table command chain) [] :=
  ⟨leads_headerParts holds, by simp, ⟨by simp, by simp, by simp⟩, by simp⟩

theorem texts_scan_headerPart {table : Table} {command : Command} {chain : Chain} {part : Part}
    (member : part ∈ headerParts table command chain) : Token.texts (Token.scan part.display) = part.words :=
  Token.texts_scan_joinWords (isWord_headerParts member)

theorem infix_words {part : Part} {ps : List Part} (member : part ∈ ps) : part.words <:+: ps.flatMap Part.words := by
  obtain ⟨before, after, rfl⟩ := List.append_of_mem member
  exact ⟨before.flatMap Part.words, after.flatMap Part.words, by simp⟩

/-- The first parts of a header are those of every header that agrees with it up to a part behind them, and can be
    completed by it. -/
theorem completable_header {context : Context} {front parts : List Part} (ahead : front = parts.take front.length)
    {table : Table} {command : Command} {chain : Chain} (holds : (context.table?.getD table).Holds chain) (index : Nat)
    (low : front.length ≤ index) (agree : parts.take index = (headerParts table command chain).take index) {part : Part}
    (next : (headerParts table command chain)[index]? = some part) :
    Completable context front (Token.texts (Token.scan part.display)) := by
  have again : (headerParts table command chain).take front.length = front := by
    calc (headerParts table command chain).take front.length
        = ((headerParts table command chain).take index).take front.length := by rw [List.take_take, Nat.min_eq_left low]
      _ = parts.take front.length := by rw [← agree, List.take_take, Nat.min_eq_left low]
      _ = front := ahead.symm
  have member : part ∈ (headerParts table command chain).drop front.length := by
    refine List.mem_of_getElem? (i := index - front.length) ?_
    rw [List.getElem?_drop, Nat.add_sub_cancel' low, next]
  rw [texts_scan_headerPart (List.mem_of_mem_drop member)]
  refine ⟨_, [], front, (headerParts table command chain).drop front.length, [], shape_headerParts command holds, rfl,
    by simp, ?_, infix_words member⟩
  calc headerParts table command chain ++ Clause.allParts []
      = (headerParts table command chain).take front.length ++ (headerParts table command chain).drop front.length := by
        simp [Clause.allParts]
    _ = front ++ (headerParts table command chain).drop front.length ++ [] := by rw [again, List.append_nil]

/-- No part of a header comes from a protocol. -/
theorem any_produces_of_subset {table : Table} {command : Command} {chain : Chain} {front : List Part}
    (inside : front ⊆ headerParts table command chain) (p : Protocol) :
    front.any (Flag.ofProtocol p).produces = false := by
  rw [List.any_eq_false]
  intro part member produced
  obtain ⟨given?, rfl⟩ := (Flag.produces_iff rfl).1 produced
  simpa using mem_headerParts.1 (inside member)

section

variable {context : Context} {front : List Part} {clauses : List Clause}

theorem Shape.append_clause (shape : Shape context front clauses) (whole : front.length = 4) {clause : Clause}
    (recognized : clause.Recognized) (fresh : clause.flag ∉ clauses.map Clause.flag) :
    Shape context front (clauses ++ [clause]) := by
  refine ⟨shape.leads, ?_, ⟨?_, ?_, ?_⟩, fun _ => whole⟩
  · simpa [or_imp, forall_and] using ⟨shape.recognized, recognized⟩
  · simpa [or_imp, forall_and] using ⟨shape.fits.proper, recognized.proper⟩
  · rw [List.map_append, List.map_singleton, List.nodup_append_comm]
    exact List.nodup_cons.2 ⟨fresh, shape.fits.single⟩
  · simpa [or_imp, forall_and] using ⟨shape.fits.among, recognized.proper.flag_mem⟩

/-- A clause of a flag that produced no part can be added. -/
theorem Shape.completable_clause (shape : Shape context front clauses) (whole : front.length = 4) {flag : Flag}
    (member : flag ∈ stockFlags) (unmatched : (Clause.allParts clauses).any flag.produces = false) {form : String}
    (isForm : form ∈ flag.forms) :
    Completable context (front ++ Clause.allParts clauses) (Token.texts (Token.scan form)) := by
  obtain ⟨clause, recognized, rfl, begins⟩ := Clause.exists_of_form member isForm
  have fresh : clause.flag ∉ clauses.map Clause.flag := by
    intro again
    obtain ⟨other, inside, same⟩ := List.mem_map.1 again
    obtain ⟨part, isPart, produced⟩ := List.any_eq_true.1 (shape.recognized other inside).proper.any_produces
    rw [same] at produced
    have found : (Clause.allParts clauses).any clause.flag.produces = true :=
      List.any_eq_true.2 ⟨part, List.mem_flatMap.2 ⟨other, inside, isPart⟩, produced⟩
    simp [unmatched] at found
  exact ⟨front, clauses ++ [clause], front ++ Clause.allParts clauses, clause.parts, [],
    shape.append_clause whole recognized fresh, whole, by simp, by simp [Clause.allParts], begins.isInfix⟩

/-- A port that a protocol lacks can be added behind the others. -/
theorem Shape.add_port {p : Protocol} {before after : List Clause} {ports : List (Side × String)}
    (shape : Shape context front (before ++ .protocol p ports :: after)) {side : Side} (absent : side ∉ ports.map Prod.fst)
    {value : String} (readable : (Port.number? value).isSome) (plain : Port.plain value = value) :
    Shape context front (before ++ .protocol p (ports ++ [(side, value)]) :: after) := by
  have own := shape.recognized (.protocol p ports) (by simp)
  have flags : (before ++ Clause.protocol p (ports ++ [(side, value)]) :: after).map Clause.flag =
      (before ++ Clause.protocol p ports :: after).map Clause.flag := by
    simp [Clause.flag]
  have recognized : (Clause.protocol p (ports ++ [(side, value)])).Recognized := by
    refine Clause.recognized_protocol ⟨own.proper.1, ?_⟩ (List.forall_mem_append.2 ⟨fun port member => ?_, ?_⟩)
    · rw [List.map_append, List.map_singleton, List.nodup_append_comm]
      exact List.nodup_cons.2 ⟨absent, own.proper.2⟩
    · exact ⟨own.readable port member, own.plain_port member⟩
    · simpa using ⟨readable, plain⟩
  have each {motive : Clause → Prop} (given : ∀ clause ∈ before ++ .protocol p ports :: after, motive clause)
      (new : motive (.protocol p (ports ++ [(side, value)]))) :
      ∀ clause ∈ before ++ .protocol p (ports ++ [(side, value)]) :: after, motive clause := by
    intro clause member
    simp only [List.mem_append, List.mem_cons] at given member
    rcases member with ahead | rfl | behind
    · exact given clause (.inl ahead)
    · exact new
    · exact given clause (.inr (.inr behind))
  refine ⟨shape.leads, each shape.recognized recognized, ⟨each shape.fits.proper recognized.proper, ?_,
    each shape.fits.among recognized.proper.flag_mem⟩, fun _ => shape.whole (by simp)⟩
  rw [flags]
  exact shape.fits.single

/-- A port that a matched protocol lacks can be added behind its other ports. -/
theorem Shape.completable_port (shape : Shape context front clauses) (whole : front.length = 4) {p : Protocol}
    (matched : (Clause.allParts clauses).any (Flag.ofProtocol p).produces = true) {side : Side}
    (unmatched : (Clause.allParts clauses).any (Flag.port side p).produces = false) {form : String}
    (isForm : form ∈ (Flag.port side p).forms) :
    Completable context (front ++ Clause.allParts clauses) (Token.texts (Token.scan form)) := by
  obtain ⟨part, isPart, produced⟩ := List.any_eq_true.1 matched
  obtain ⟨given?, rfl⟩ := (Flag.produces_iff rfl).1 produced
  obtain ⟨ports, inside⟩ := Rule.mem_allParts_protocol? shape.fits.proper isPart rfl
  obtain ⟨before, after, rfl⟩ := List.append_of_mem inside
  have absent : side ∉ ports.map Prod.fst := by
    intro given
    obtain ⟨⟨other, value⟩, isPort, same⟩ := List.mem_map.1 given
    have found : Part.condition (.port other p) (some value) ∈ Clause.allParts (before ++ .protocol p ports :: after) :=
      List.mem_flatMap.2 ⟨_, inside, List.mem_cons_of_mem _ (List.mem_map.2 ⟨(other, value), isPort, rfl⟩)⟩
    have missed := List.any_eq_false.1 unmatched _ found
    exact missed ((Flag.produces_iff rfl).2 ⟨some value, by rw [← same]⟩)
  have number : (Port.number? "80").isSome := by decide
  refine ⟨front, _, front ++ Clause.allParts before ++ (Clause.protocol p ports).parts,
    Flag.portParts p [(side, "80")], Clause.allParts after, shape.add_port absent number (by decide), whole, ?_, ?_, ?_⟩
  · simp [Clause.allParts]
  · simp [Clause.allParts, Clause.parts, Flag.portParts]
  · obtain rfl := List.mem_singleton.1 isForm
    cases p <;> cases side <;> decide

/-- What a flag proposes behind a whole header can be added. -/
theorem Shape.completable_flags (shape : Shape context front clauses) (whole : front.length = 4) {form : String}
    (proposed : form ∈ Flag.allProposals (front ++ Clause.allParts clauses) stockFlags) :
    Completable context (front ++ Clause.allParts clauses) (Token.texts (Token.scan form)) := by
  obtain ⟨flag, member, proposed⟩ := Flag.mem_allProposals.1 proposed
  rcases Flag.proposals_cases member proposed with ⟨unmatched, isForm⟩ | ⟨p, side, -, rfl, matched, unmatched, isForm⟩
  · rw [List.any_append, Bool.or_eq_false_iff] at unmatched
    exact shape.completable_clause whole member unmatched.2 isForm
  · obtain ⟨table, command, chain, ahead⟩ := shape.leads.isPrefix
    rw [List.any_append, Bool.or_eq_false_iff] at unmatched
    rw [List.any_append, any_produces_of_subset ahead.subset, Bool.false_or] at matched
    exact shape.completable_port whole matched unmatched.2 isForm

end

theorem exists_chain (table : Table) : ∃ chain, table.Holds chain := by
  cases table with
  | filter => exact ⟨.forward, by decide⟩
  | nat => exact ⟨.prerouting, by decide⟩

theorem Leads.exists_take {context : Context} {front : List Part} (leads : Leads header context front) :
    ∃ table command chain, front = (headerParts table command chain).take front.length ∧ front.length ≤ 4 := by
  obtain ⟨table, command, chain, ahead⟩ := leads.isPrefix
  exact ⟨table, command, chain, List.prefix_iff_eq_take.1 ahead, ahead.length_le⟩

/-- What a component proposes is the written form of a part that was not matched, or it comes from flags. -/
theorem Component.proposals_cases {component : Component} {matched : List Part} {context : Context} {forms : List String}
    (proposed : component.proposals? matched context = some forms) {form : String} (member : form ∈ forms) :
    (∃ literal, component = .start literal ∧ matched = [] ∧ form = (Part.start literal).display) ∨
      (∃ tables table, component = .table tables ∧ matched.any isTable = false ∧ form = (Part.table table).display) ∨
      (∃ command, component = .command ∧ matched.any isCommand = false ∧ form = (Part.command command).display) ∨
      (∃ chain, component = .chain ∧ matched.any isChain = false ∧ chain ∈ openChains context ∧
        form = (Part.chain chain).display) ∨
      ∃ flags, component = .flags flags ∧ form ∈ Flag.allProposals matched flags := by
  cases component with
  | start literal =>
    simp only [proposals?, Option.ite_none_right_eq_some, Option.some.injEq] at proposed
    obtain ⟨empty, rfl⟩ := proposed
    refine .inl ⟨literal, rfl, List.isEmpty_iff.1 empty, ?_⟩
    simpa [Part.display, Part.words, Part.keyword, Part.value?] using member
  | table tables =>
    simp only [proposals?, Option.ite_none_left_eq_some, Option.some.injEq, Bool.not_eq_true] at proposed
    obtain ⟨unmatched, rfl⟩ := proposed
    obtain ⟨table, -, rfl⟩ := List.mem_map.1 member
    exact .inr (.inl ⟨tables, table, rfl, unmatched, rfl⟩)
  | command =>
    simp only [proposals?, Option.ite_none_left_eq_some, Option.some.injEq, Bool.not_eq_true] at proposed
    obtain ⟨unmatched, rfl⟩ := proposed
    obtain ⟨command, -, rfl⟩ := List.mem_map.1 member
    refine .inr (.inr (.inl ⟨command, rfl, unmatched, ?_⟩))
    simp [Part.display, Part.words, Part.keyword, Part.value?]
  | chain =>
    simp only [proposals?, Option.ite_none_left_eq_some, Option.some.injEq, Bool.not_eq_true] at proposed
    obtain ⟨unmatched, rfl⟩ := proposed
    obtain ⟨chain, isOpen, rfl⟩ := List.mem_map.1 member
    refine .inr (.inr (.inr (.inl ⟨chain, rfl, unmatched, isOpen, ?_⟩)))
    simp [Part.display, Part.words, Part.keyword, Part.value?]
  | flags options =>
    have proposed : form ∈ Flag.allProposals matched options := by
      rw [proposals?] at proposed
      split at proposed
      · cases proposed
      · obtain rfl := Option.some.inj proposed
        exact member
    exact .inr (.inr (.inr (.inr ⟨options, rfl, proposed⟩)))

/-- Which parts of a header stand among its first ones. -/
theorem any_take_headerParts (table : Table) (command : Command) (chain : Chain) (count : Nat) :
    let front := (headerParts table command chain).take count
    front.any Component.isTable = decide (2 ≤ count) ∧ front.any Component.isCommand = decide (3 ≤ count) ∧
      front.any Component.isChain = decide (4 ≤ count) := by
  rcases count with _ | _ | _ | _ | count <;>
    simp [headerParts, Component.isTable, Component.isCommand, Component.isChain]

/-- Once a header has named its table, the chains that are open are those of the table in force. -/
theorem holds_of_open {context : Context} {table : Table} {command : Command} {chain named : Chain} {count : Nat}
    (low : 2 ≤ count)
    (isOpen : named ∈ Component.openChains (((headerParts table command chain).take count).foldl Context.resolve context)) :
    (context.table?.getD table).Holds named := by
  obtain ⟨rest, rfl⟩ := Nat.exists_eq_add_of_le' low
  have known : (((headerParts table command chain).take (rest + 2)).foldl Context.resolve context).table? =
      some (context.table?.getD table) := Context.table?_foldl_resolve (table?_resolve_table context table) _
  simpa [Component.openChains, known] using (List.mem_filter.1 isOpen).2

theorem two_le_of_chain {count : Nat} (near : .chain ∈ around count) : 2 ≤ count := by
  rcases count with _ | _ | count
  · simp [around, header] at near
  · simp [around, header] at near
  · omega

theorem three_le_of_flags {count : Nat} {flags : List Flag} (near : .flags flags ∈ around count) :
    flags = stockFlags ∧ 3 ≤ count := by
  rcases count with _ | _ | _ | count
  · simp [around, header] at near
  · simp [around, header] at near
  · simp [around, header] at near
  · have inside : Component.flags flags ∈ header ++ [.flags stockFlags] := List.mem_of_mem_drop (List.mem_of_mem_take near)
    exact ⟨by simpa [header] using inside, by omega⟩

/-- What a flag proposes behind a header that lacks its chain can be added behind a chain. -/
theorem completable_behind_chain {context : Context} {table : Table} {command : Command} {chain : Chain}
    (holds : (context.table?.getD table).Holds chain) {form : String}
    (proposed : form ∈ Flag.allProposals ((headerParts table command chain).take 3) stockFlags) :
    Completable context ((headerParts table command chain).take 3) (Token.texts (Token.scan form)) := by
  obtain ⟨flag, member, proposed⟩ := Flag.mem_allProposals.1 proposed
  rcases Flag.proposals_cases member proposed with ⟨-, isForm⟩ | ⟨p, side, -, rfl, matched, -⟩
  · obtain ⟨clause, recognized, -, begins⟩ := Clause.exists_of_form member isForm
    have shape := (shape_headerParts command holds).append_clause rfl recognized (by simp)
    refine ⟨_, _, (headerParts table command chain).take 3, .chain chain :: clause.parts, [], shape, rfl, by simp, ?_, ?_⟩
    · simp [headerParts, Clause.allParts]
    · exact begins.isInfix.trans (List.suffix_append (Part.chain chain).words clause.words).isInfix
  · rw [any_produces_of_subset (List.take_subset 3 _)] at matched
    cases matched

/-- Every suggestion can be completed. -/
theorem completable_of_suggested {context : Context} {tokens : List Token} (words : ∀ token ∈ tokens, IsWord token.text)
    {form : String} (suggested : form ∈ (stock.parse context tokens).suggestions) :
    Completable context (parts (stock.parse context tokens).elements) (Token.texts (Token.scan form)) := by
  obtain ⟨clauses, shape, meaning, resolved, -⟩ := shape_of_walk context words
  obtain ⟨component, near, forms, proposed, member⟩ := mem_suggestions suggested
  rw [covered_header] at near
  rw [resolved] at proposed
  rw [meaning] at proposed ⊢
  generalize parts (walk header context tokens).elements = front at *
  obtain ⟨table, command, chain, ahead, few⟩ := shape.leads.exists_take
  have alone (short : front.length < 4) : front ++ Clause.allParts clauses = front := by
    have none : clauses = [] := by_contra fun more => by have := shape.whole more; omega
    simp [none, Clause.allParts]
  obtain ⟨atTable, atCommand, atChain⟩ := any_take_headerParts table command chain front.length
  rw [← ahead] at atTable atCommand atChain
  rcases Component.proposals_cases proposed member with ⟨literal, rfl, empty, same⟩ | ⟨tables, named, rfl, unmatched, same⟩ |
    ⟨named, rfl, unmatched, same⟩ | ⟨named, rfl, unmatched, isOpen, same⟩ | ⟨flags, rfl, inFlags⟩
  · obtain ⟨rfl, -⟩ := List.append_eq_nil_iff.1 empty
    obtain rfl : literal = "iptables" := by simpa [around, header] using near
    obtain ⟨held, holds⟩ := exists_chain (context.table?.getD table)
    rw [empty, same]
    exact @completable_header _ _ _ ahead _ command _ holds 0 (Nat.le_refl 0) rfl _ rfl
  · obtain ⟨held, holds⟩ := exists_chain (context.table?.getD named)
    rw [List.any_append, Bool.or_eq_false_iff, atTable, decide_eq_false_iff_not] at unmatched
    rw [alone (by omega), same]
    exact @completable_header _ _ _ ahead _ command _ holds 1 (by omega) rfl _ rfl
  · obtain ⟨held, holds⟩ := exists_chain (context.table?.getD table)
    rw [List.any_append, Bool.or_eq_false_iff, atCommand, decide_eq_false_iff_not] at unmatched
    rw [alone (by omega), same]
    exact @completable_header _ _ _ ahead _ _ _ holds 2 (by omega) rfl _ rfl
  · rw [List.any_append, Bool.or_eq_false_iff, atChain, decide_eq_false_iff_not] at unmatched
    rw [ahead] at isOpen
    rw [alone (by omega), same]
    exact @completable_header _ _ _ ahead _ command _ (holds_of_open (two_le_of_chain near) isOpen) 3 (by omega) rfl _ rfl
  · obtain ⟨rfl, low⟩ := three_le_of_flags near
    by_cases whole : front.length = 4
    · exact shape.completable_flags whole inFlags
    · have three : front.length = 3 := by omega
      obtain ⟨held, holds⟩ := exists_chain (context.table?.getD table)
      have again : front = (headerParts table command held).take 3 := ahead.trans (by rw [three]; rfl)
      rw [alone (by omega), again] at inFlags
      rw [alone (by omega), again]
      exact completable_behind_chain holds inFlags

/-- A whole rule is recognized in the words of parts that were completed. -/
theorem Completable.exists_text {context : Context} {ps : List Part} {words : List String}
    (completable : Completable context ps words) :
    ∃ text front inserted back, ps.flatMap Part.words = front ++ back ∧
      Token.texts (Token.scan text) = front ++ inserted ++ back ∧ words <:+: inserted ∧
      (stock.parse context (Token.scan text)).complete = true ∧
      ps.Subperm (parts (stock.parse context (Token.scan text)).elements) := by
  obtain ⟨front, clauses, before, inserted, after, shape, whole, rfl, split, inside⟩ := completable
  have words : ∀ word ∈ (front ++ Clause.allParts clauses).flatMap Part.words, IsWord word := by
    intro word member
    obtain ⟨part, isPart, own⟩ := List.mem_flatMap.1 member
    exact shape.isWord isPart word own
  have texts := Token.texts_scan_joinWords words
  have typed : Token.texts (Token.scan (Text.joinWords ((front ++ Clause.allParts clauses).flatMap Part.words))) =
      front.flatMap Part.words ++ Clause.allWords clauses := by
    rw [texts, List.flatMap_append, Clause.flatMap_words_allParts]
  obtain ⟨meaning, -, complete⟩ := parse_words shape.leads (fun clause member => (shape.recognized clause member).readable)
    shape.fits shape.whole typed
  refine ⟨_, before.flatMap Part.words, inserted.flatMap Part.words, after.flatMap Part.words, by simp, ?_, inside,
    complete.2 whole, ?_⟩
  · rw [texts, split]
    simp
  · have same : (parts (stock.parse context (Token.scan (Text.joinWords
        ((front ++ Clause.allParts clauses).flatMap Part.words)))).elements).Perm (before ++ inserted ++ after) := by
      rw [meaning, ← split]
      exact (Clause.allParts_tidy_perm_of_recognized shape.recognized).append_left front
    have fewer : (before ++ after).Sublist (before ++ inserted ++ after) := by simp
    exact fewer.subperm.trans same.symm.subperm

/-- No suggestion is a dead end: tokens can be inserted into the written form of what was recognized, those of the
    suggestion in a row among them, so that it is a whole rule with all that was recognized in it. -/
theorem suggestion_completes (context : Context) (raw : String) {outcome : Outcome}
    (parsed : stock.parse? true context (Token.scan raw) = some outcome) {form : String}
    (suggested : form ∈ outcome.suggestions) :
    ∃ text front inserted back,
      Token.texts (Token.scan (Text.joinWords ((parts outcome.elements).map Part.display))) = front ++ back ∧
        Token.texts (Token.scan text) = front ++ inserted ++ back ∧ Token.texts (Token.scan form) <:+: inserted ∧
        ∃ whole, stock.parse? false context (Token.scan text) = some whole ∧
          (parts outcome.elements).Subperm (parts whole.elements) := by
  obtain rfl : stock.parse context (Token.scan raw) = outcome := Option.some.inj parsed
  have words : ∀ token ∈ Token.scan raw, IsWord token.text := fun token member => Token.isWord_of_mem_scan member
  obtain ⟨text, front, inserted, back, split, typed, inside, complete, all⟩ :=
    (completable_of_suggested words suggested).exists_text
  refine ⟨text, front, inserted, back, ?_, typed, inside, _, ?_, all⟩
  · obtain ⟨_, clauses, shape, meaning, -⟩ := shape_of_parse context words
    rw [← split, Token.texts_scan_joinWords_eq_flatMap, List.flatMap_map]
    refine List.flatMap_congr fun part member => Token.texts_scan_joinWords (shape.isWord (meaning ▸ member))
  · simp [Grammar.parse?, complete]

theorem suggestion_completes_port :
    let raw := "iptables -t FILTER -A INPUT -p tcp -s 10.0.0.1 --dports 22"
    ∃ outcome, stock.parse? true .unknown (Token.scan raw) = some outcome ∧ "--dport" ∈ outcome.suggestions ∧
      ∃ text front inserted back,
        Token.texts (Token.scan (Text.joinWords ((parts outcome.elements).map Part.display))) = front ++ back ∧
          Token.texts (Token.scan text) = front ++ inserted ++ back ∧ Token.texts (Token.scan "--dport") <:+: inserted ∧
          ∃ whole, stock.parse? false .unknown (Token.scan text) = some whole ∧
            (parts outcome.elements).Subperm (parts whole.elements) := by
  intro raw
  have suggested : "--dport" ∈ (stock.parse .unknown (Token.scan raw)).suggestions := by decide +kernel
  exact ⟨_, rfl, suggested, suggestion_completes .unknown raw rfl suggested⟩

end PacketFilter.Grammar
