import PacketFilter.Grammar.Outcome
import PacketFilter.Proofs.Grammar.Header
import PacketFilter.Proofs.Grammar.Recognition

/-!
# The stock grammar

What the stock grammar makes of words: the parts of a header and, behind a whole header, clauses. Main
statements: `parse_stock`, the outcome in terms of the header and of the flags behind it, `shape_of_parse`,
its parts, and `parse_words`, what their written form is recognized as.
-/

namespace PacketFilter.Grammar

/-! ## The header -/

/-- The parts of a whole header. -/
def headerParts (table : Table) (command : Command) (chain : Chain) : List Part :=
  [.start "iptables", .table table, .command command, .chain chain]

theorem mem_headerParts {table : Table} {command : Command} {chain : Chain} {part : Part} :
    part ∈ headerParts table command chain ↔
      part = .start "iptables" ∨ part = .table table ∨ part = .command command ∨ part = .chain chain := by
  simp [headerParts]

theorem header_fixed : ∀ component ∈ header, component.isFlags = false := by
  simp [header, Component.isFlags]

theorem isWord_headerParts {table : Table} {command : Command} {chain : Chain} {part : Part}
    (member : part ∈ headerParts table command chain) : ∀ word ∈ part.words, IsWord word := by
  rcases mem_headerParts.1 member with rfl | rfl | rfl | rfl
  · decide
  · cases table <;> decide
  · cases command <;> decide
  · cases chain <;> decide

/-- The parts that the components of the header recognize are the first ones of a whole header. -/
theorem Leads.isPrefix {context : Context} {ps : List Part} (leads : Leads header context ps) :
    ∃ table command chain, ps <+: headerParts table command chain := by
  cases leads with
  | stop => exact ⟨.filter, .append, .input, List.nil_prefix⟩
  | @step _ _ _ first _ offers later =>
    cases first <;> try exact offers.elim
    obtain rfl := offers
    cases later with
    | stop => exact ⟨.filter, .append, .input, by simp [headerParts]⟩
    | @step _ _ _ second _ offers later =>
      cases second <;> try exact offers.elim
      case table table =>
      cases later with
      | stop => exact ⟨table, .append, .input, by simp [headerParts]⟩
      | @step _ _ _ third _ offers later =>
        cases third <;> try exact offers.elim
        case command command =>
        cases later with
        | stop => exact ⟨table, command, .input, by simp [headerParts]⟩
        | @step _ _ _ fourth _ offers later =>
          cases fourth <;> try exact offers.elim
          case chain chain =>
          cases later with
          | stop => exact ⟨table, command, chain, by simp [headerParts]⟩

theorem covered_header (context : Context) (tokens : List Token) :
    (walk header context tokens).covered = (parts (walk header context tokens).elements).length := by
  rw [(walk_leads header_fixed context tokens).2.1, parts, List.length_map]

theorem covered_header_le (context : Context) (tokens : List Token) : (walk header context tokens).covered ≤ 4 := by
  obtain ⟨leads, -, -⟩ := walk_leads header_fixed context tokens
  obtain ⟨table, command, chain, ahead⟩ := leads.isPrefix
  rw [covered_header]
  exact ahead.length_le

theorem words_of_whole {context : Context} {tokens : List Token} (whole : (walk header context tokens).covered = 4) :
    ∃ flag name word, ∃ (chain : Chain) (more : List String),
      Token.texts tokens = "iptables" :: flag :: name :: word :: chain.name :: more ∧
        Table.flag.accepts flag = true ∧ ∃ command : Command, command.spelling.accepts word = true := by
  obtain ⟨leads, -, -⟩ := walk_leads header_fixed context tokens
  obtain ⟨table, command, chain, ahead⟩ := leads.isPrefix
  have same := ahead.eq_of_length (by rw [← covered_header, whole]; rfl)
  obtain ⟨typed, shape, all⟩ := walk_typed header_fixed context tokens
  simp only [same, headerParts, List.forall₂_cons_left_iff, List.forall₂_nil_left_iff] at all
  obtain ⟨_, _, startTyped, ⟨_, _, tableTyped, ⟨_, _, commandTyped, ⟨_, _, chainTyped, rfl, rfl⟩, rfl⟩, rfl⟩, rfl⟩ := all
  cases startTyped
  cases chainTyped
  cases tableTyped with
  | table spells names =>
    cases commandTyped with
    | command found =>
      have accepts := List.find?_some found
      exact ⟨_, _, _, chain, _, shape, spells, command, accepts⟩

/-! ## Walks through a signature -/

theorem walk_append (front back : List Component) (context : Context) (tokens : List Token) :
    walk (front ++ back) context tokens =
      let first := walk front context tokens
      if first.covered = front.length then
        let second := walk back first.context first.rest
        ⟨first.covered + second.covered, first.elements ++ second.elements, second.rest, second.context⟩
      else first := by
  induction front generalizing context tokens with
  | nil => simp [walk]
  | cons component front ih =>
    cases fits : component.fit? context tokens with
    | none => simp [walk, fits]
    | some found =>
      simp only [List.cons_append, walk, fits, ih]
      by_cases whole : (walk front found.context found.rest).covered = front.length
      · simp [whole]; omega
      · simp [whole]

namespace Flag

theorem elements_ne_nil_of_fit? {flag : Flag} {tokens : List Token} {fit : Fit} (fits : flag.fit? tokens = some fit) :
    fit.elements ≠ [] := by
  have ofValue (c : Condition) (fits : valueFit? c tokens = some fit) : fit.elements ≠ [] := by
    obtain ⟨flag, value, rest, rfl, -, -, rfl⟩ := Clause.valueFit?_eq_some_iff.1 fits
    simp
  cases flag with
  | protocol p options =>
    rw [fit?] at fits
    obtain ⟨flag, name, rest, -, -, -, rfl⟩ := Clause.protocolFit?_eq_some_iff.1 fits
    simp
  | port side p =>
    rw [fit?] at fits
    obtain ⟨front, flag, value, back, port, rfl, -, -, -, rfl⟩ := portFit?_eq_some_iff.1 fits
    simp
  | address side => exact ofValue _ (by simpa [fit?] using fits)
  | interface direction => exact ofValue _ (by simpa [fit?] using fits)
  | state => exact ofValue _ (by simpa [fit?] using fits)
  | jump =>
    rw [fit?] at fits
    obtain ⟨a, target?, -, -, meaning, -⟩ := Clause.jumpFit?_sound fits
    intro empty
    simp [empty, parts] at meaning

theorem rest_of_scan {flags : List Flag} {tokens : List Token} (nothing : (scan flags tokens).elements = []) :
    (scan flags tokens).rest = tokens := by
  have claims : Claims fit? flags tokens (scan flags tokens) := claims_greedy fit? flags tokens
  generalize scan flags tokens = found at nothing claims
  cases claims with
  | stop => rfl
  | claim earlier fits later => exact absurd (List.append_eq_nil_iff.1 nothing).1 (elements_ne_nil_of_fit? fits)

end Flag

theorem walk_flags (flags : List Flag) (context : Context) (tokens : List Token) :
    walk [.flags flags] context tokens =
      let scan := Flag.scan flags tokens
      ⟨if scan.elements = [] then 0 else 1, scan.elements, scan.rest, context⟩ := by
  by_cases nothing : (Flag.scan flags tokens).elements = []
  · simp [walk, Component.fit?, Scan.fit?, nothing, Flag.rest_of_scan nothing]
  · simp [walk, Component.fit?, Scan.fit?, nothing]

/-! ## The choice between the signatures -/

theorem longest_mem (best : Attempt) (attempts : List Attempt) : best.longest attempts ∈ best :: attempts := by
  induction attempts generalizing best with
  | nil => simp [Attempt.longest]
  | cons attempt attempts ih =>
    rw [Attempt.longest]
    split
    · exact List.mem_cons_of_mem best (ih attempt)
    · have mem := ih best
      simp only [List.mem_cons] at mem ⊢
      tauto

/-- The attempt that counts is the one of a signature. -/
theorem choose_mem (grammar : Grammar) (context : Context) (tokens : List Token) :
    grammar.choose context tokens ∈ grammar.attempts context tokens := by
  rw [choose]
  split
  · exact List.mem_of_find?_eq_some ‹_›
  · exact longest_mem _ _

theorem choose_pair (first second : Signature) (context : Context) (tokens : List Token) :
    let a := attempt context tokens first
    let b := attempt context tokens second
    (Grammar.mk first [second]).choose context tokens =
      if a.IsComplete then a else if b.IsComplete then b else if a.recovered < b.recovered then b else a := by
  intro a b
  by_cases ha : a.IsComplete
  · simp [choose, attempts, signatures, a, ha]
  · by_cases hb : b.IsComplete <;> simp [choose, attempts, signatures, Attempt.longest, a, b, ha, hb]

/-- The walk of the header with flags goes on behind a whole header only. -/
theorem walk_stock (context : Context) (tokens : List Token) :
    let head := walk header context tokens
    let scan := Flag.scan stockFlags head.rest
    walk (header ++ [.flags stockFlags]) context tokens =
      if head.covered = 4 then
        ⟨4 + if scan.elements = [] then 0 else 1, head.elements ++ scan.elements, scan.rest, head.context⟩
      else head := by
  intro head scan
  have spread := walk_append header [.flags stockFlags] context tokens
  simp only [walk_flags] at spread
  by_cases whole : head.covered = 4
  · rw [if_pos whole, ← whole]
    exact spread.trans (if_pos whole)
  · rw [if_neg whole]
    exact spread.trans (if_neg whole)

/-- The signature with flags recovers all that the header alone recovers. -/
theorem not_recovered_lt (context : Context) (tokens : List Token) (short : Signature) (alone : short.components = header) :
    ¬ (attempt context tokens stock.first).recovered < (attempt context tokens short).recovered := by
  have long : (attempt context tokens stock.first).walk = walk (header ++ [.flags stockFlags]) context tokens := rfl
  have walked : (attempt context tokens short).walk = walk header context tokens := congrArg (walk · context tokens) alone
  rw [Attempt.recovered, Attempt.recovered, long, walked, walk_stock]
  split <;> simp

/-- The signature without flags counts only if it is complete and the one with flags is not. -/
theorem parse_eq_ofAttempt (context : Context) (tokens : List Token) :
    let long := attempt context tokens stock.first
    let short := attempt context tokens ⟨header, by simp [header], by decide⟩
    stock.parse context tokens =
      .ofAttempt (if long.IsComplete then long else if short.IsComplete then short else long) := by
  intro long short
  have chosen : stock.choose context tokens = if long.IsComplete then long else if short.IsComplete then short
      else if long.recovered < short.recovered then short else long :=
    choose_pair _ _ context tokens
  rw [if_neg (not_recovered_lt context tokens _ rfl)] at chosen
  exact congrArg Outcome.ofAttempt chosen

/-- The outcome of the stock grammar: the elements of the header and, if it is whole, those of the flags. -/
theorem parse_stock (context : Context) (tokens : List Token) :
    let head := walk header context tokens
    let scan := Flag.scan stockFlags head.rest
    let outcome := stock.parse context tokens
    outcome.context = head.context ∧
      if head.covered = 4 then
        outcome.elements = head.elements ++ scan.elements ∧ (outcome.complete = true ↔ scan.rest = [])
      else outcome.elements = head.elements ∧ outcome.complete = false := by
  intro head scan outcome
  let long := attempt context tokens stock.first
  let short := attempt context tokens ⟨header, by simp [header], by decide⟩
  have chosen : outcome = .ofAttempt (if long.IsComplete then long else if short.IsComplete then short else long) :=
    parse_eq_ofAttempt context tokens
  have shortWalk : short.walk = head := rfl
  have shortComplete : short.IsComplete ↔ head.covered = 4 ∧ head.rest = [] := Iff.rfl
  have longWalk : long.walk =
      if head.covered = 4 then
        ⟨4 + if scan.elements = [] then 0 else 1, head.elements ++ scan.elements, scan.rest, head.context⟩
      else head := walk_stock context tokens
  have longComplete : long.IsComplete ↔ long.walk.covered = 5 ∧ long.walk.rest = [] := Iff.rfl
  clear_value long short
  rw [chosen]
  by_cases whole : head.covered = 4
  · rw [if_pos whole] at longWalk ⊢
    by_cases nothing : scan.elements = []
    · have same : scan.rest = head.rest := Flag.rest_of_scan nothing
      rw [if_neg (by simp [longComplete, longWalk, nothing])]
      by_cases done : head.rest = []
      · rw [if_pos (shortComplete.2 ⟨whole, done⟩)]
        simp [Outcome.ofAttempt, shortComplete, shortWalk, nothing, whole, same]
      · rw [if_neg (by simp [shortComplete, done])]
        simp [Outcome.ofAttempt, longComplete, longWalk, nothing, same, done]
    · by_cases done : scan.rest = []
      · rw [if_pos (by simp [longComplete, longWalk, nothing, done])]
        simp [Outcome.ofAttempt, longComplete, longWalk, nothing, done]
      · have more : head.rest ≠ [] := by
          intro empty
          have none := Flag.scan_nil stockFlags
          rw [← empty] at none
          exact nothing (congrArg Scan.elements none)
        rw [if_neg (by simp [longComplete, longWalk, done]), if_neg (by simp [shortComplete, more])]
        simp [Outcome.ofAttempt, longComplete, longWalk, done]
  · rw [if_neg whole] at longWalk ⊢
    have few : head.covered ≤ 4 := covered_header_le context tokens
    have longIncomplete : ¬ long.IsComplete := by
      rw [longComplete, longWalk]
      omega
    rw [if_neg longIncomplete, if_neg (by simp [shortComplete, whole])]
    simp [Outcome.ofAttempt, longIncomplete, longWalk]

/-! ## Shapes -/

/-- The parts of a rule: those of a header and, if it is whole, those of recognized clauses. -/
structure Shape (context : Context) (front : List Part) (clauses : List Clause) : Prop where
  leads : Leads header context front
  recognized : ∀ clause ∈ clauses, clause.Recognized
  fits : Clause.Fits clauses stockFlags
  whole : clauses ≠ [] → front.length = 4

theorem Shape.isWord {context : Context} {front : List Part} {clauses : List Clause}
    (shape : Shape context front clauses) {part : Part} (member : part ∈ front ++ Clause.allParts clauses) :
    ∀ word ∈ part.words, IsWord word := by
  rcases List.mem_append.1 member with inFront | inClauses
  · obtain ⟨table, command, chain, ahead⟩ := shape.leads.isPrefix
    exact isWord_headerParts (ahead.subset inFront)
  · obtain ⟨clause, inside, own⟩ := List.mem_flatMap.1 inClauses
    exact fun word isWord => (shape.recognized clause inside).words word (List.mem_flatMap.2 ⟨part, own, isWord⟩)

theorem Shape.tidy {context : Context} {front : List Part} {clauses : List Clause}
    (shape : Shape context front clauses) : Shape context front (clauses.map Clause.tidy) := by
  refine ⟨shape.leads, ?_, shape.fits.tidy, ?_⟩
  · simpa using fun clause member => (shape.recognized clause member).tidy
  · simpa using shape.whole

/-- Whatever is recognized among words has a shape, with the header that is walked. -/
theorem shape_of_walk (context : Context) {tokens : List Token} (words : ∀ token ∈ tokens, IsWord token.text) :
    let front := parts (walk header context tokens).elements
    let outcome := stock.parse context tokens
    ∃ clauses, Shape context front clauses ∧ parts outcome.elements = front ++ Clause.allParts clauses ∧
      outcome.context = front.foldl Context.resolve context ∧ (outcome.complete = true → front.length = 4) := by
  intro front outcome
  obtain ⟨leads, -, resolved⟩ := walk_leads header_fixed context tokens
  obtain ⟨same, result⟩ := parse_stock context tokens
  have length : front.length = (walk header context tokens).covered := (covered_header context tokens).symm
  by_cases whole : (walk header context tokens).covered = 4
  · rw [if_pos whole] at result
    have left := rest_sublist_of_walk header_fixed context tokens
    obtain ⟨clauses, recognized, fits, meaning⟩ := Clause.clauses_of_claims
      (claims_greedy Flag.fit? stockFlags (walk header context tokens).rest) (List.Sublist.refl _)
      fun token member => words token (left.subset member)
    refine ⟨clauses, ⟨leads, recognized, fits, fun _ => length.trans whole⟩, ?_, same.trans resolved,
      fun _ => length.trans whole⟩
    rw [result.1, ← meaning]
    simp [parts, Flag.scan, front]
  · rw [if_neg whole] at result
    refine ⟨[], ⟨leads, by simp, ⟨by simp, by simp, by simp⟩, by simp⟩, ?_, same.trans resolved, ?_⟩
    · rw [result.1]
      simp [Clause.allParts, front]
    · exact fun done => absurd (result.2.symm.trans done) (by decide)

/-- Whatever is recognized among words has a shape. -/
theorem shape_of_parse (context : Context) {tokens : List Token} (words : ∀ token ∈ tokens, IsWord token.text) :
    let outcome := stock.parse context tokens
    ∃ front clauses, Shape context front clauses ∧ parts outcome.elements = front ++ Clause.allParts clauses ∧
      outcome.context = front.foldl Context.resolve context ∧ (outcome.complete = true → front.length = 4) :=
  ⟨_, shape_of_walk context words⟩

/-- The words of a header and of readable clauses behind a whole one are recognized as them, in tidy form. -/
theorem parse_words {context : Context} {front : List Part} {clauses : List Clause} (leads : Leads header context front)
    (readable : ∀ clause ∈ clauses, clause.Readable) (fits : Clause.Fits clauses stockFlags)
    (whole : clauses ≠ [] → front.length = 4) {tokens : List Token}
    (shape : Token.texts tokens = front.flatMap Part.words ++ Clause.allWords clauses) :
    let outcome := stock.parse context tokens
    parts outcome.elements = front ++ Clause.allParts (clauses.map Clause.tidy) ∧
      outcome.context = front.foldl Context.resolve context ∧ (outcome.complete = true ↔ front.length = 4) := by
  intro outcome
  have ends : front.length = header.length ∨ Clause.allWords clauses = [] := by
    by_cases none : clauses = []
    · exact .inr (by simp [none, Clause.allWords])
    · exact .inl (whole none)
  obtain ⟨meaning, counted, rest, resolved⟩ := walk_of_leads header_fixed leads shape ends
  obtain ⟨same, result⟩ := parse_stock context tokens
  by_cases all : front.length = 4
  · rw [if_pos (counted.trans all)] at result
    obtain ⟨others, done⟩ := Clause.scan_clauses (List.Sublist.refl _) fits readable rest
    refine ⟨?_, same.trans resolved, by simp [all, result.2, done, outcome]⟩
    rw [← meaning, ← others, result.1]
    simp [parts]
  · obtain rfl : clauses = [] := Decidable.byContradiction fun more => all (whole more)
    rw [if_neg (by omega)] at result
    refine ⟨?_, same.trans resolved, by simp [all, result.2, outcome]⟩
    rw [result.1, meaning]
    simp [Clause.allParts]

/-- Clauses behind a whole header are readable if no word of theirs is left. -/
theorem readable_of_complete {context : Context} {front : List Part} {clauses : List Clause}
    (leads : Leads header context front) (whole : front.length = 4) (fits : Clause.Fits clauses stockFlags)
    {tokens : List Token} (shape : Token.texts tokens = front.flatMap Part.words ++ Clause.allWords clauses)
    (complete : (stock.parse context tokens).complete = true) : ∀ clause ∈ clauses, clause.Readable := by
  obtain ⟨-, counted, rest, -⟩ := walk_of_leads header_fixed leads shape (.inl whole)
  obtain ⟨-, result⟩ := parse_stock context tokens
  rw [if_pos (counted.trans whole)] at result
  exact Clause.readable_of_scan (List.Sublist.refl _) fits rest (result.2.1 complete)

/-- A complete match has a whole header. -/
theorem covered_of_complete {context : Context} {tokens : List Token}
    (complete : (stock.parse context tokens).complete = true) : (walk header context tokens).covered = 4 := by
  by_contra short
  obtain ⟨-, result⟩ := parse_stock context tokens
  rw [if_neg short, complete] at result
  exact absurd result.2 (by decide)

end PacketFilter.Grammar
