import Mathlib.Data.List.Chain
import PacketFilter.Proofs.Grammar.Stock
import PacketFilter.Proofs.Rule.Evaluation

/-!
# Written forms

The written form of a rule is read as the rule again, up to the order of the ports that follow a protocol.
Main statements: `parsed_new`, what is known of a rule that was read from a text, `Parsed.reread`, what its
written form is read as, `reread_sound`, that the two rules mean the same, and `reread_eq_iff`, when they
are equal.
-/

namespace PacketFilter

namespace Context

theorem eq_of_fields {a b : Context} (table : a.table? = b.table?) (chain : a.chain? = b.chain?) : a = b := by
  cases a
  cases b
  exact congrArg₂ Context.mk table chain

@[simp] theorem table?_settled (context : Context) : context.settled.table? = context.table? := by
  rw [settled]
  split <;> rfl

@[simp] theorem settled_settled (context : Context) : context.settled.settled = context.settled := by
  by_cases clashes : context.Clashes
  · have chainless : ¬ (Context.mk context.table? none).Clashes := by simp [Clashes]
    simp only [settled, if_pos clashes, if_neg chainless]
  · simp only [settled, if_neg clashes]

theorem settled_of_holds {context : Context} {table : Table} {chain : Chain} (known : context.table? = some table)
    (named : context.chain? = some chain) (holds : table.Holds chain) : context.settled = context := by
  refine if_neg ?_
  rintro ⟨other, otherKnown, another, anotherNamed, excluded⟩
  obtain rfl : table = other := Option.some.inj (known.symm.trans otherKnown)
  obtain rfl : chain = another := Option.some.inj (named.symm.trans anotherNamed)
  exact excluded holds

end Context

theorem Part.words_ne_nil (part : Part) : part.words ≠ [] := by
  cases part with
  | condition c value? => cases c <;> simp [words, keyword, Condition.keyword]
  | action a value? => simp [words, keyword, Action.keyword]
  | _ => simp [words, keyword, value?]

namespace Rule

open Grammar

/-! ## The written form -/

/-- The written form separates the words of all parts by single spaces. -/
theorem text_eq_joinWords (rule : Rule) : rule.text = Text.joinWords (rule.parts.flatMap Part.words) := by
  have groups : rule.parts.map Part.display = (rule.parts.map Part.words).map Text.joinWords := by
    rw [List.map_map]
    rfl
  have nonempty : ∀ group ∈ rule.parts.map Part.words, group ≠ [] := by
    simpa using fun part _ => part.words_ne_nil
  rw [text, groups, Text.joinWords_map_joinWords nonempty, List.flatMap_def]

theorem texts_scan_display {part : Part} (words : ∀ word ∈ part.words, IsWord word) :
    Token.texts (Token.scan part.display) = part.words :=
  Token.texts_scan_joinWords words

theorem texts_scan_text (rule : Rule) :
    Token.texts (Token.scan rule.text) = rule.parts.flatMap fun part => Token.texts (Token.scan part.display) := by
  rw [text, Token.texts_scan_joinWords_eq_flatMap, List.flatMap_map]

/-- The words of the written form are those of the parts, if these are words. -/
theorem texts_scan_text_of_isWord {rule : Rule} (words : ∀ part ∈ rule.parts, ∀ word ∈ part.words, IsWord word) :
    Token.texts (Token.scan rule.text) = rule.parts.flatMap Part.words := by
  rw [texts_scan_text]
  exact List.flatMap_congr fun part member => texts_scan_display (words part member)

/-! ## Rules read from a text -/

/-- What is known of a rule that was read from a text: its parts have a shape that fits its context. -/
structure Parsed (rule : Rule) (front : List Part) (clauses : List Clause) : Prop
    extends Shape rule.context.settled front clauses where
  parts_eq : rule.parts = front ++ Clause.allParts clauses
  resolved : front.foldl Context.resolve rule.context.settled = rule.context.settled

/-- A rule is what its grammar makes of the words of its text; a blank text has none. -/
theorem new_stock (preset : Context) (raw : String) :
    (new stock preset raw).elements = (stock.parse preset.settled (Token.scan raw)).elements ∧
      (new stock preset raw).context = (stock.parse preset.settled (Token.scan raw)).context := by
  by_cases blank : Text.IsBlank raw
  · have nothing : Token.scan raw = [] := Token.scan_eq_nil_iff.2 blank
    obtain ⟨same, result⟩ := parse_stock preset.settled []
    have empty : walk header preset.settled [] = ⟨0, [], [], preset.settled⟩ := rfl
    rw [empty] at same result
    rw [nothing, new, if_pos blank, same, result.1]
    exact ⟨rfl, rfl⟩
  · rw [new, if_neg blank]
    exact ⟨rfl, rfl⟩

/-- The context that the parts of a header resolve resolves to itself, once a chain that its table does not hold
    is dropped. -/
theorem resolve_settled {context : Context} {front : List Part} (leads : Leads header context front) :
    let final := (front.foldl Context.resolve context).settled
    front.foldl Context.resolve final = final := by
  intro final
  have table : (front.foldl Context.resolve final).table? = final.table? :=
    Context.table?_foldl_of_final context front [] (by simp [final])
  have chain : (front.foldl Context.resolve final).chain? = final.chain? := by
    rcases leads.chain? with unnamed | ⟨table, chain, known, holds, named⟩
    · exact unnamed final
    · have same : final = front.foldl Context.resolve context := Context.settled_of_holds known (named context) holds
      rw [named final, same, named context]
  exact Context.eq_of_fields table chain

theorem shape_of_table? {context other : Context} {front : List Part} {clauses : List Clause}
    (shape : Shape context front clauses) (same : other.table? = (front.foldl Context.resolve context).table?) :
    Shape other front clauses :=
  { shape with leads := shape.leads.of_table? same }

/-- What a rule that is read from a text consists of. -/
theorem parsed_new (preset : Context) (raw : String) :
    ∃ front clauses, Parsed (new stock preset raw) front clauses := by
  obtain ⟨elements, context⟩ := new_stock preset raw
  obtain ⟨front, clauses, shape, meaning, resolved, -⟩ :=
    shape_of_parse preset.settled fun token member => Token.isWord_of_mem_scan member
  refine ⟨front, clauses, shape_of_table? shape ?_, ?_, ?_⟩
  · rw [context, resolved, Context.table?_settled]
  · rw [parts, elements, meaning]
  · rw [context, resolved]
    exact resolve_settled shape.leads

/-! ## Reading the written form -/

/-- The written form of parts that have a shape is read as these parts, with the ports of each protocol in order. -/
theorem parse_text {rule : Rule} {context : Context} {front : List Part} {clauses : List Clause}
    (meaning : rule.parts = front ++ Clause.allParts clauses) (shape : Shape context front clauses) :
    let outcome := stock.parse context (Token.scan rule.text)
    PacketFilter.parts outcome.elements = front ++ Clause.allParts (clauses.map Clause.tidy) ∧
      outcome.context = front.foldl Context.resolve context ∧ (outcome.complete = true ↔ front.length = 4) := by
  have words : Token.texts (Token.scan rule.text) = front.flatMap Part.words ++ Clause.allWords clauses := by
    rw [texts_scan_text_of_isWord fun part member => shape.isWord (meaning ▸ member), meaning, List.flatMap_append,
      Clause.flatMap_words_allParts]
  exact parse_words shape.leads (fun clause member => (shape.recognized clause member).readable) shape.fits shape.whole
    words

/-- The rule that is read from the written form of a rule has the same clauses in tidy form. -/
theorem Parsed.reread {rule : Rule} {front : List Part} {clauses : List Clause} (h : Parsed rule front clauses) :
    Parsed (new stock rule.context rule.text) front (clauses.map Clause.tidy) ∧
      (new stock rule.context rule.text).context = rule.context.settled := by
  obtain ⟨elements, context⟩ := new_stock rule.context rule.text
  obtain ⟨meaning, resolved, -⟩ := parse_text h.parts_eq h.toShape
  have settled : (new stock rule.context rule.text).context = rule.context.settled := by
    rw [context, resolved, h.resolved]
  refine ⟨⟨?_, ?_, ?_⟩, settled⟩
  · rw [settled, Context.settled_settled]
    exact h.toShape.tidy
  · rw [parts, elements, meaning]
  · rw [settled, Context.settled_settled, h.resolved]

theorem Parsed.perm_reread {rule : Rule} {front : List Part} {clauses : List Clause} (h : Parsed rule front clauses) :
    (new stock rule.context rule.text).parts.Perm rule.parts := by
  rw [h.reread.1.parts_eq, h.parts_eq]
  exact (Clause.allParts_tidy_perm_of_recognized h.recognized).append_left front

theorem Parsed.run?_reread {rule : Rule} {front : List Part} {clauses : List Clause} (h : Parsed rule front clauses)
    (packet : Packet) : (new stock rule.context rule.text).run? packet = rule.run? packet := by
  rw [run?, run?, h.reread.1.parts_eq, h.parts_eq]
  exact Clause.run?_tidy front (fun clause member => (h.recognized clause member).proper) packet

/-- Reading the written form once more changes nothing. -/
theorem Parsed.parts_reread_reread {rule : Rule} {front : List Part} {clauses : List Clause}
    (h : Parsed rule front clauses) :
    let again := new stock rule.context rule.text
    (new stock again.context again.text).parts = again.parts := by
  intro again
  refine h.reread.1.reread.1.parts_eq.trans ?_
  rw [h.reread.1.parts_eq]
  simp [Function.comp_def]

/-! ## The check of a whole rule -/

theorem checkTotal_iff (rule : Rule) (isStock : rule.grammar = stock) :
    rule.checkTotal.1 = true ↔ (stock.parse rule.context (Token.scan rule.text)).complete = true := by
  simp only [checkTotal, parse?, canonical, Grammar.parse?, isStock, Bool.false_or, Option.isSome_ite]

theorem grammar_new (grammar : Grammar) (preset : Context) (raw : String) : (new grammar preset raw).grammar = grammar := by
  rw [new]
  split <;> rfl

theorem raw_new (grammar : Grammar) (preset : Context) (raw : String) : (new grammar preset raw).raw = raw := by
  unfold new
  split <;> rfl

/-- A rule that was read from a text is a whole one exactly if it has the four parts of a header. -/
theorem Parsed.checkTotal_iff {rule : Rule} (isStock : rule.grammar = stock) {front : List Part} {clauses : List Clause}
    (h : Parsed rule front clauses) :
    rule.checkTotal.1 = true ↔ ∃ table command chain rest, rule.parts = headerParts table command chain ++ rest := by
  have leads : Leads header rule.context front := h.leads.of_table? (by rw [h.resolved, Context.table?_settled])
  obtain ⟨-, -, complete⟩ := parse_text h.parts_eq { h.toShape with leads := leads }
  rw [Rule.checkTotal_iff rule isStock, complete]
  constructor
  · intro whole
    obtain ⟨table, command, chain, ahead⟩ := leads.isPrefix
    have same := ahead.eq_of_length whole
    exact ⟨table, command, chain, Clause.allParts clauses, by rw [h.parts_eq, same]⟩
  · rintro ⟨table, command, chain, rest, split⟩
    by_contra short
    have alone : clauses = [] := by_contra fun more => short (h.whole more)
    obtain ⟨_, _, _, ahead⟩ := leads.isPrefix
    have few := ahead.length_le
    have total := congrArg List.length (h.parts_eq.symm.trans split)
    simp [alone, Clause.allParts, headerParts] at few total
    omega

/-- Writing a rule and reading it again never changes its meaning: its parts are permuted, every packet has the
    same verdict, and a second reading changes nothing. -/
theorem reread_sound (preset : Context) (raw : String) :
    let rule := new stock preset raw
    let again := new stock rule.context rule.text
    let third := new stock again.context again.text
    again.parts.Perm rule.parts ∧ (∀ packet, again.run? packet = rule.run? packet) ∧ third.parts = again.parts ∧
      (rule.checkTotal.1 = true ↔
        ∃ table command chain rest, rule.parts = headerParts table command chain ++ rest) := by
  intro rule again third
  obtain ⟨front, clauses, parsed⟩ := parsed_new preset raw
  exact ⟨parsed.perm_reread, parsed.run?_reread, parsed.parts_reread_reread,
    parsed.checkTotal_iff (grammar_new stock preset raw)⟩

/-! ## Exact round trips -/

/-- Somewhere a destination port stands directly in front of the source port of the same protocol. -/
def SwapsPorts (parts : List Part) : Prop :=
  ∃ p destination source, [Part.condition (.port .destination p) (some destination),
    Part.condition (.port .source p) (some source)] <:+: parts

/-- Two parts that are not a destination port with a source port behind it. -/
def InOrder (first second : Part) : Prop :=
  ∀ p q destination source, first = .condition (.port .destination p) destination →
    second ≠ .condition (.port .source q) source

theorem not_swapsPorts_of_isChain {parts : List Part} (chain : parts.IsChain InOrder) : ¬ SwapsPorts parts := by
  rintro ⟨p, destination, source, inside⟩
  have pair := chain.infix inside
  rw [List.isChain_pair] at pair
  exact pair p p (some destination) (some source) rfl rfl

theorem ports_cases {ports : List (Side × String)} (single : (ports.map Prod.fst).Nodup) :
    ports = [] ∨ (∃ port, ports = [port]) ∨ (∃ a b, ports = [(.source, a), (.destination, b)]) ∨
      ∃ a b, ports = [(.destination, a), (.source, b)] := by
  rcases ports with _ | ⟨⟨first, a⟩, _ | ⟨⟨second, b⟩, _ | ⟨⟨third, _⟩, _⟩⟩⟩
  · exact .inl rfl
  · exact .inr (.inl ⟨(first, a), rfl⟩)
  · cases first <;> cases second
    · simp at single
    · exact .inr (.inr (.inl ⟨a, b, rfl⟩))
    · exact .inr (.inr (.inr ⟨a, b, rfl⟩))
    · simp at single
  · cases first <;> cases second <;> cases third <;> simp at single

/-- A recognized clause is in tidy form, or it has a destination port with the source port behind it. -/
theorem tidy_eq_or {clause : Clause} (h : clause.Recognized) :
    clause.tidy = clause ∧ clause.parts.IsChain InOrder ∨ clause.tidy ≠ clause ∧ SwapsPorts clause.parts := by
  cases clause with
  | protocol p ports =>
    have plain : ∀ port ∈ ports, Port.plain port.2 = port.2 := fun port member => h.plain_port member
    rcases ports_cases h.proper.2 with rfl | ⟨⟨side, a⟩, rfl⟩ | ⟨a, b, rfl⟩ | ⟨a, b, rfl⟩
    · left
      simp [Clause.tidy, Flag.tidyPorts, Flag.bySide, Clause.parts, Flag.portParts]
    · left
      cases side <;> simp_all [Clause.tidy, Flag.tidyPorts, Flag.bySide, Clause.parts, Flag.portParts, InOrder]
    · left
      simp_all [Clause.tidy, Flag.tidyPorts, Flag.bySide, Clause.parts, Flag.portParts, InOrder]
    · right
      refine ⟨?_, p, a, b, ?_⟩
      · simp [Clause.tidy, Flag.tidyPorts, Flag.bySide]
      · exact List.IsSuffix.isInfix (List.suffix_cons _ _)
  | value c text => exact .inl ⟨rfl, by simp [Clause.parts]⟩
  | jump a target? => exact .inl ⟨rfl, by simp [Clause.parts]⟩

theorem inOrder_head {clauses : List Clause} (proper : ∀ clause ∈ clauses, clause.Proper) (first : Part) :
    ∀ second ∈ (Clause.allParts clauses).head?, InOrder first second := by
  cases clauses with
  | nil => simp [Clause.allParts]
  | cons clause clauses =>
    have own := proper clause (by simp)
    cases clause with
    | protocol p ports => simp [Clause.parts, InOrder]
    | value c text =>
      rcases Condition.mem_valued.1 own with rfl | rfl | rfl | rfl | rfl <;> simp [Clause.parts, InOrder]
    | jump a target? => simp [Clause.parts, InOrder]

theorem isChain_allParts {clauses : List Clause} (recognized : ∀ clause ∈ clauses, clause.Recognized)
    (tidy : clauses.map Clause.tidy = clauses) : (Clause.allParts clauses).IsChain InOrder := by
  induction clauses with
  | nil => exact .nil
  | cons clause clauses ih =>
    obtain ⟨own, others⟩ := List.cons.inj tidy
    rcases tidy_eq_or (recognized clause (by simp)) with ⟨-, chain⟩ | ⟨untidy, -⟩
    · have later := ih (fun other member => recognized other (by simp [member])) others
      refine List.isChain_append.2 ⟨chain, later, fun first _ => inOrder_head (fun other member => ?_) first⟩
      exact (recognized other (by simp [member])).proper
    · exact absurd own untidy

theorem isChain_header_append {table : Table} {command : Command} {chain : Chain} {front others : List Part}
    (ahead : front <+: headerParts table command chain) (later : others.IsChain InOrder) :
    (front ++ others).IsChain InOrder := by
  have silent : ∀ part ∈ front, ∀ second, InOrder part second := by
    intro part member second
    rcases mem_headerParts.1 (ahead.subset member) with rfl | rfl | rfl | rfl <;> simp [InOrder]
  clear ahead
  induction front with
  | nil => exact later
  | cons part front ih =>
    exact List.isChain_cons.2 ⟨fun second _ => silent part (by simp) second,
      ih fun other member => silent other (by simp [member])⟩

/-- Recognized clauses behind a header are in tidy form exactly if no ports are swapped. -/
theorem tidy_iff {context : Context} {front : List Part} {clauses : List Clause} (shape : Shape context front clauses) :
    clauses.map Clause.tidy = clauses ↔ ¬ SwapsPorts (front ++ Clause.allParts clauses) := by
  constructor
  · intro tidy
    obtain ⟨table, command, chain, ahead⟩ := shape.leads.isPrefix
    exact not_swapsPorts_of_isChain (isChain_header_append ahead (isChain_allParts shape.recognized tidy))
  · intro ordered
    refine (List.map_congr_left fun clause member => ?_).trans (List.map_id clauses)
    rcases tidy_eq_or (shape.recognized clause member) with ⟨tidy, -⟩ | ⟨-, p, destination, source, inside⟩
    · exact tidy
    · have whole : clause.parts <:+: Clause.allParts clauses := by
        obtain ⟨before, after, rfl⟩ := List.append_of_mem member
        exact ⟨Clause.allParts before, Clause.allParts after, by simp [Clause.allParts]⟩
      exact absurd ⟨p, destination, source, inside.trans (whole.trans (List.suffix_append _ _).isInfix)⟩ ordered

theorem portWords_injective {left right : List (Side × String)} (same : Flag.portWords left = Flag.portWords right) :
    left = right := by
  induction left generalizing right with
  | nil =>
    cases right with
    | nil => rfl
    | cons port right => simp [Flag.portWords] at same
  | cons port left ih =>
    cases right with
    | nil => simp [Flag.portWords] at same
    | cons other right =>
      obtain ⟨side, text⟩ := port
      obtain ⟨otherSide, otherText⟩ := other
      obtain ⟨keyword, rfl, later⟩ : side.portFlag.keyword = otherSide.portFlag.keyword ∧ text = otherText ∧
          Flag.portWords left = Flag.portWords right := by simpa using same
      obtain rfl : side = otherSide := Side.eq_of_portFlag_accepts (by simp [← keyword])
      rw [ih later]

/-- A clause has as many words as its tidy form, and is the tidy form if the words are the same. -/
theorem words_tidy (clause : Clause) :
    clause.tidy.words.length = clause.words.length ∧ (clause.tidy.words = clause.words → clause.tidy = clause) := by
  cases clause with
  | protocol p ports =>
    have count (ports : List (Side × String)) : (Flag.portWords ports).length = ports.length * 2 := by
      simp [Flag.portWords, List.length_flatMap]
    have size : (Flag.tidyPorts ports).length = ports.length := by
      simpa using (Flag.tidyPorts_perm ports).length_eq
    simp only [Clause.tidy, Clause.words_protocol]
    refine ⟨by simp [count, size], fun same => ?_⟩
    have ports := portWords_injective (List.cons.inj (List.cons.inj same).2).2
    rw [ports]
  | value c text => exact ⟨rfl, fun _ => rfl⟩
  | jump a target? => exact ⟨rfl, fun _ => rfl⟩

/-- Clauses that have the words of their tidy forms are in tidy form. -/
theorem tidy_of_allWords {clauses : List Clause}
    (same : Clause.allWords (clauses.map Clause.tidy) = Clause.allWords clauses) : clauses.map Clause.tidy = clauses := by
  induction clauses with
  | nil => rfl
  | cons clause clauses ih =>
    obtain ⟨size, tidy⟩ := words_tidy clause
    obtain ⟨own, others⟩ := List.append_inj same size
    rw [List.map_cons, tidy own, ih others]

/-- A rule is read back from its written form exactly if none of its source ports stands behind a destination port. -/
theorem reread_eq_iff (preset : Context) (raw : String) :
    let rule := new stock preset raw
    let again := new stock preset rule.text
    (again.parts = rule.parts ↔ ¬ SwapsPorts rule.parts) ∧ (again.text = rule.text ↔ ¬ SwapsPorts rule.parts) := by
  intro rule again
  obtain ⟨elements, -⟩ := new_stock preset raw
  obtain ⟨front, clauses, shape, recognized, -, -⟩ :=
    shape_of_parse preset.settled fun token member => @Token.isWord_of_mem_scan raw token member
  have meaning : rule.parts = front ++ Clause.allParts clauses := by
    rw [parts, elements, recognized]
  have read : again.parts = front ++ Clause.allParts (clauses.map Clause.tidy) := by
    rw [parts, (new_stock preset rule.text).1, (parse_text meaning shape).1]
  -- Equal texts have equal words, and equally many of them for each clause.
  have words : again.text = rule.text → clauses.map Clause.tidy = clauses := by
    intro same
    have scanned : Token.texts (Token.scan again.text) = Token.texts (Token.scan rule.text) := by rw [same]
    rw [texts_scan_text_of_isWord fun part member => shape.tidy.isWord (read ▸ member),
      texts_scan_text_of_isWord fun part member => shape.isWord (meaning ▸ member), read, meaning, List.flatMap_append,
      List.flatMap_append, Clause.flatMap_words_allParts, Clause.flatMap_words_allParts] at scanned
    exact tidy_of_allWords (List.append_cancel_left scanned)
  have parts_of_tidy (tidy : clauses.map Clause.tidy = clauses) : again.parts = rule.parts := by
    rw [read, meaning, tidy]
  have text_of_parts (same : again.parts = rule.parts) : again.text = rule.text := by
    rw [text, text, same]
  rw [meaning, ← tidy_iff shape, ← meaning]
  exact ⟨⟨fun same => words (text_of_parts same), parts_of_tidy⟩,
    ⟨words, fun tidy => text_of_parts (parts_of_tidy tidy)⟩⟩

/-- A port flag between the flag of the source port and its number makes the two ports change places. -/
theorem reread_nested_ports :
    let raw := "iptables -t FILTER -A INPUT -p tcp --sport --dport 80 22"
    let rule := new stock .unknown raw
    let again := new stock .unknown rule.text
    (stock.parse? false .unknown (Token.scan raw)).isSome = true ∧
      rule.text = "iptables -t FILTER -A INPUT -p tcp --dport 80 --sport 22" ∧
      again.text = "iptables -t FILTER -A INPUT -p tcp --sport 22 --dport 80" ∧ again.parts ≠ rule.parts := by
  decide +kernel

end Rule

end PacketFilter
