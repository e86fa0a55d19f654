import PacketFilter.Proofs.Grammar.Clause

/-!
# What flags recognize

Whatever the flags of the stock grammar recognize among words is a list of readable clauses, and clauses
that are recognized without a rest are readable. Main statements: `clauses_of_claims` and
`readable_of_scan`.
-/

namespace PacketFilter.Grammar.Clause

/-! ## Words of values -/

theorem isBlank_of_isDigit {c : Char} (h : c.isDigit = true) : Text.isBlank c = false := by
  simp only [Char.isDigit, ge_iff_le, Bool.and_eq_true, decide_eq_true_eq, UInt32.le_iff_toNat_le] at h
  have low : 48 ≤ c.toNat := h.1
  have high : c.toNat ≤ 57 := h.2
  simp [Text.isBlank, Text.blankRanges]
  omega

theorem isWord_of_number? {word : String} (h : (Port.number? word).isSome) : IsWord word := by
  obtain ⟨port, number⟩ := Option.isSome_iff_exists.1 h
  obtain ⟨value, read, -⟩ := Option.map_eq_some_iff.1 number
  obtain ⟨nonempty, digits, -⟩ := Text.number?_eq_some_iff.1 read
  exact ⟨by simpa using nonempty, fun c member => isBlank_of_isDigit (digits c member)⟩

theorem isWord_lead {flag : Flag} (member : flag ∈ stockFlags) : IsWord flag.lead.keyword := by
  simp only [stockFlags, List.mem_cons, List.not_mem_nil, or_false] at member
  rcases member with rfl | rfl | rfl | rfl | rfl | rfl | rfl | rfl <;> decide

theorem isWord_portFlag (side : Side) : IsWord side.portFlag.keyword := by
  cases side
  · show IsWord "--sport"
    decide
  · show IsWord "--dport"
    decide

theorem isWord_portWords {ports : List (Side × String)} (readable : ∀ port ∈ ports, (Port.number? port.2).isSome)
    {word : String} (member : word ∈ Flag.portWords ports) : IsWord word := by
  obtain ⟨⟨side, text⟩, inside, member⟩ := List.mem_flatMap.1 member
  have either : word = side.portFlag.keyword ∨ word = text := by simpa using member
  rcases either with rfl | rfl
  · exact isWord_portFlag side
  · exact isWord_of_number? (readable (side, word) inside)

/-! ## One flag -/

/-- What a clause is that was recognized among words. -/
structure Recognized (clause : Clause) : Prop where
  proper : clause.Proper
  readable : clause.Readable
  plain : ∀ part ∈ clause.parts, part.plain = part
  words : ∀ word ∈ clause.words, IsWord word

theorem Recognized.parts_tidy_perm {clause : Clause} (h : clause.Recognized) : clause.tidy.parts.Perm clause.parts := by
  have same : clause.parts.map Part.plain = clause.parts :=
    (List.map_congr_left h.plain).trans (List.map_id _)
  rw [← same]
  exact h.proper.parts_tidy_perm

theorem Recognized.tidy {clause : Clause} (h : clause.Recognized) : clause.tidy.Recognized := by
  refine ⟨h.proper.tidy, h.readable.tidy, fun part member => h.plain part (h.parts_tidy_perm.subset member), ?_⟩
  intro word member
  exact h.words word (((h.parts_tidy_perm.flatMap_right Part.words).subset) member)

theorem Recognized.plain_port {p : Protocol} {ports : List (Side × String)} (h : (protocol p ports).Recognized)
    {port : Side × String} (member : port ∈ ports) : Port.plain port.2 = port.2 := by
  have inside : Part.condition (.port port.1 p) (some port.2) ∈ (protocol p ports).parts :=
    List.mem_cons_of_mem _ (List.mem_map.2 ⟨port, member, rfl⟩)
  simpa [Part.plain] using h.plain _ inside

theorem allParts_tidy_perm_of_recognized {clauses : List Clause} (recognized : ∀ clause ∈ clauses, clause.Recognized) :
    (allParts (clauses.map Clause.tidy)).Perm (allParts clauses) := by
  induction clauses with
  | nil => exact .nil
  | cons clause clauses ih =>
    rw [List.map_cons, allParts_cons, allParts_cons]
    exact (recognized clause (by simp)).parts_tidy_perm.append (ih fun other member => recognized other (by simp [member]))

theorem valueFit?_eq_some_iff {condition : Condition} {tokens : List Token} {fit : Fit} :
    Flag.valueFit? condition tokens = some fit ↔
      ∃ flag value rest, tokens = flag :: value :: rest ∧ condition.spelling.accepts flag.text = true ∧
        condition.accepts value.text = true ∧
        fit = ⟨[.ofTyped (.condition condition (some value.text)) [flag.text, value.text]], rest⟩ := by
  rcases tokens with _ | ⟨flag, _ | ⟨value, rest⟩⟩
  · simp [Flag.valueFit?]
  · simp [Flag.valueFit?]
  · simp [Flag.valueFit?]
    grind

theorem protocolFit?_eq_some_iff {p : Protocol} {options : List Recognizer} {tokens : List Token} {fit : Fit} :
    Flag.protocolFit? p options tokens = some fit ↔
      ∃ flag name rest, tokens = flag :: name :: rest ∧ Protocol.flag.accepts flag.text = true ∧
        p.isNamed name.text = true ∧
        let inScope := fun token : Token => !Protocol.flag.accepts token.text
        let scan := greedy id options (rest.takeWhile inScope)
        fit = ⟨.ofTyped (.condition (.protocol p) none) [flag.text, name.text] :: scan.elements,
          scan.rest ++ rest.dropWhile inScope⟩ := by
  rcases tokens with _ | ⟨flag, _ | ⟨name, rest⟩⟩
  · simp [Flag.protocolFit?]
  · simp [Flag.protocolFit?]
  · simp only [Flag.protocolFit?, Option.ite_none_right_eq_some, Option.some.injEq, Bool.and_eq_true]
    constructor
    · rintro ⟨⟨spells, names⟩, rfl⟩
      exact ⟨flag, name, rest, rfl, spells, names, rfl⟩
    · rintro ⟨_, _, _, same, spells, names, rfl⟩
      obtain ⟨rfl, rfl, rfl⟩ : _ ∧ _ ∧ _ := by simpa using same
      exact ⟨⟨spells, names⟩, rfl⟩

/-- A protocol that fits selects itself in front, and takes its ports from its scope. -/
theorem fit?_ofProtocol_eq_some_iff {p : Protocol} (hasPorts : p.hasPorts = true) {tokens : List Token} {fit : Fit} :
    (Flag.ofProtocol p).fit? tokens = some fit ↔
      ∃ flag name rest, tokens = flag :: name :: rest ∧ Protocol.flag.accepts flag.text = true ∧
        p.isNamed name.text = true ∧
        let inScope := fun token : Token => !Protocol.flag.accepts token.text
        let scan := greedy id [Flag.portFit? .source p, Flag.portFit? .destination p] (rest.takeWhile inScope)
        fit = ⟨.ofTyped (.condition (.protocol p) none) [flag.text, name.text] :: scan.elements,
          scan.rest ++ rest.dropWhile inScope⟩ := by
  rw [fit?_ofProtocol_eq hasPorts]
  exact protocolFit?_eq_some_iff

/-- A jump that fits names an action, and has the target that the action needs. -/
theorem jumpFit?_cases {tokens : List Token} {fit : Fit} (fits : Flag.jumpFit? tokens = some fit) :
    ∃ flag name a, Action.jump.accepts flag.text = true ∧ a.name = name.text ∧
      ((∃ rest, a.option? = none ∧ tokens = flag :: name :: rest ∧
          fit = ⟨[.ofTyped (.action a none) [flag.text, name.text]], rest⟩) ∨
        ∃ option target rest, a.option? = some option.text ∧ Target.isLiteral target.text = true ∧
          tokens = flag :: name :: option :: target :: rest ∧
          fit = ⟨[.ofTyped (.action a (some target.text)) [flag.text, name.text, option.text, target.text]], rest⟩) := by
  rcases tokens with _ | ⟨flag, _ | ⟨name, rest⟩⟩
  · simp [Flag.jumpFit?] at fits
  · simp [Flag.jumpFit?] at fits
  · simp only [Flag.jumpFit?, Option.ite_none_right_eq_some, Option.bind_eq_bind, Option.bind_eq_some_iff] at fits
    obtain ⟨spells, a, found, fits⟩ := fits
    have same := List.find?_some found
    refine ⟨flag, name, a, spells, beq_iff_eq.1 same, ?_⟩
    cases option : a.option? with
    | none =>
      simp only [Flag.actionFit?, option, Option.some.injEq] at fits
      exact .inl ⟨rest, rfl, rfl, fits.symm⟩
    | some word =>
      rcases rest with _ | ⟨token, _ | ⟨target, rest⟩⟩
      · simp [Flag.actionFit?, option] at fits
      · simp [Flag.actionFit?, option] at fits
      · simp only [Flag.actionFit?, option, Option.ite_none_right_eq_some, Bool.and_eq_true, Option.some.injEq] at fits
        obtain ⟨⟨same, literal⟩, rfl⟩ := fits
        obtain rfl : token.text = word := beq_iff_eq.1 same
        exact .inr ⟨token, target, rest, rfl, literal, rfl, rfl⟩

theorem jumpFit?_sound {tokens : List Token} {fit : Fit} (fits : Flag.jumpFit? tokens = some fit) :
    ∃ a target?, (jump a target?).Proper ∧
      (∀ target ∈ target?, Target.isLiteral target = true ∧ target ∈ Token.texts tokens) ∧
      PacketFilter.parts fit.elements = [.action a target?] ∧ fit.rest.Sublist tokens := by
  obtain ⟨flag, name, a, -, -, ⟨rest, bare, rfl, rfl⟩ | ⟨option, target, rest, needs, literal, rfl, rfl⟩⟩ :=
    jumpFit?_cases fits
  · exact ⟨a, none, by simp [Proper, bare], by simp, rfl, by simp⟩
  · refine ⟨a, some target.text, by simp [Proper, needs], by simp [literal], rfl, ?_⟩
    exact (((List.Sublist.refl rest).cons target).cons option |>.cons name).cons flag

theorem recognized_value {c : Condition} {text : String} (proper : (value c text).Proper) (accepted : c.accepts text = true)
    (word : IsWord text) : (value c text).Recognized := by
  refine ⟨proper, accepted, ?_, ?_⟩
  · rcases Condition.mem_valued.1 proper with rfl | rfl | rfl | rfl | rfl <;> simp [parts, Part.plain]
  · have lead := isWord_lead proper.flag_mem
    obtain ⟨others, start⟩ := proper.words_eq_cons
    rw [words_value proper] at start ⊢
    rw [(List.cons.inj start).1]
    simpa using ⟨lead, word⟩

theorem recognized_jump {a : Action} {target? : Option String} (proper : (jump a target?).Proper)
    (literal : ∀ target ∈ target?, Target.isLiteral target = true) (word : ∀ target ∈ target?, IsWord target) :
    (jump a target?).Recognized := by
  refine ⟨proper, literal, by simp [parts, Part.plain], ?_⟩
  rw [words_jump]
  intro other member
  simp only [List.mem_cons, List.mem_append, Option.mem_toList] at member
  rcases member with rfl | rfl | member | member
  · decide
  · rcases a with _ | _ | (_ | _) <;> decide
  · rcases a with _ | _ | (_ | _) <;> simp [Action.option?] at member <;> subst member <;> decide
  · exact word other member

theorem recognized_protocol {p : Protocol} {ports : List (Side × String)} (proper : (protocol p ports).Proper)
    (all : ∀ port ∈ ports, (Port.number? port.2).isSome ∧ Port.plain port.2 = port.2) :
    (protocol p ports).Recognized := by
  refine ⟨proper, fun port member => (all port member).1, ?_, ?_⟩
  · intro part member
    rcases List.mem_cons.1 member with rfl | member
    · rfl
    · obtain ⟨⟨side, text⟩, inside, rfl⟩ := List.mem_map.1 member
      simp [Part.plain, (all _ inside).2]
  · rw [words_protocol]
    intro word member
    simp only [List.mem_cons] at member
    rcases member with rfl | rfl | member
    · decide
    · cases p <;> decide
    · exact isWord_portWords (fun port member => (all port member).1) member

/-- A protocol that fits recognizes itself and ports of its own. -/
theorem protocolFit?_sound {p : Protocol} (hasPorts : p.hasPorts = true) {tokens : List Token} {fit : Fit}
    (fits : (Flag.ofProtocol p).fit? tokens = some fit) :
    ∃ ports, (protocol p ports).Recognized ∧ PacketFilter.parts fit.elements = (protocol p ports).parts ∧
      fit.rest.Sublist tokens := by
  obtain ⟨flag, name, rest, rfl, -, -, rfl⟩ := (fit?_ofProtocol_eq_some_iff hasPorts).1 fits
  have claims := claims_greedy id ([.source, .destination].map fun side => Flag.portFit? side p)
    (rest.takeWhile fun token => !Protocol.flag.accepts token.text)
  obtain ⟨ports, meaning, single, all, fewer⟩ := Flag.claims_ports (by decide) claims
  refine ⟨ports, recognized_protocol ⟨hasPorts, single⟩ fun port member => (all port member).2, ?_, ?_⟩
  · simp only [PacketFilter.parts, List.map_cons, Element.part_ofTyped, parts] at meaning ⊢
    rw [← meaning]
    rfl
  · have inside := fewer.append_right (rest.dropWhile fun token => !Protocol.flag.accepts token.text)
    rw [List.takeWhile_append_dropWhile] at inside
    exact (inside.cons name).cons flag

/-- A flag that fits words recognizes a clause of its own. -/
theorem fit?_sound {flag : Flag} (member : flag ∈ stockFlags) {tokens : List Token} {fit : Fit}
    (words : ∀ token ∈ tokens, IsWord token.text) (fits : flag.fit? tokens = some fit) :
    ∃ clause : Clause, clause.Recognized ∧ clause.flag = flag ∧ PacketFilter.parts fit.elements = clause.parts ∧
      fit.rest.Sublist tokens := by
  rcases Flag.stock_cases member with ⟨p, hasPorts, rfl⟩ | ⟨c, valued, own⟩ | rfl
  · obtain ⟨ports, recognized, meaning, fewer⟩ := protocolFit?_sound hasPorts fits
    exact ⟨protocol p ports, recognized, rfl, meaning, fewer⟩
  · rw [Flag.fit?_of_valued valued own] at fits
    obtain ⟨word, token, rest, rfl, -, accepted, rfl⟩ := valueFit?_eq_some_iff.1 fits
    have recognized : (value c token.text).Recognized := recognized_value valued accepted (words token (by simp))
    refine ⟨_, recognized, ?_, rfl, by simp⟩
    exact Flag.eq_of_condition? recognized.proper.flag_mem member (recognized.proper.condition?_flag.trans own.symm)
  · rw [Flag.fit?] at fits
    obtain ⟨a, target?, proper, targets, meaning, fewer⟩ := jumpFit?_sound fits
    refine ⟨jump a target?, recognized_jump proper (fun target given => (targets target given).1) ?_, rfl, meaning, fewer⟩
    intro target given
    obtain ⟨token, inside, rfl⟩ := List.mem_map.1 (targets target given).2
    exact words token inside

/-! ## Flags in any order -/

/-- The claims of stock flags among words are recognized clauses, one for each flag that is claimed. -/
theorem clauses_of_claims {flags : List Flag} {tokens : List Token} {scan : Scan Flag}
    (claims : Claims Flag.fit? flags tokens scan) (stock : flags.Sublist stockFlags)
    (words : ∀ token ∈ tokens, IsWord token.text) :
    ∃ clauses, (∀ clause ∈ clauses, clause.Recognized) ∧ Fits clauses flags ∧
      PacketFilter.parts scan.elements = allParts clauses := by
  induction claims with
  | stop => exact ⟨[], by simp, ⟨by simp, by simp, by simp⟩, rfl⟩
  | @claim before after flag tokens fit scan earlier fits later ih =>
    have fewer : (before ++ after).Sublist (before ++ flag :: after) := by simp
    obtain ⟨clause, recognized, rfl, meaning, rest⟩ := fit?_sound (stock.subset (by simp)) words fits
    obtain ⟨clauses, all, fitting, others⟩ := ih (fewer.trans stock) fun token member => words token (rest.subset member)
    -- Stock flags are told apart by their conditions, so a flag that is claimed is not claimed again.
    have distinct : (before ++ clause.flag :: after).Nodup := Flag.nodup_stockFlags.sublist stock
    have fresh : clause.flag ∉ before ++ after := (List.nodup_cons.1 (List.nodup_middle.1 distinct)).1
    refine ⟨clause :: clauses, by simpa using ⟨recognized, all⟩, ⟨?_, ?_, ?_⟩, ?_⟩
    · simpa using ⟨recognized.proper, fitting.proper⟩
    · rw [List.map_cons, List.nodup_cons]
      refine ⟨fun member => ?_, fitting.single⟩
      obtain ⟨other, inside, same⟩ := List.mem_map.1 member
      exact fresh (same ▸ fitting.among other inside)
    · simpa using fun other member => (List.mem_append.1 (fitting.among other member)).imp_right .inr
    · simp only [PacketFilter.parts, List.map_append, allParts_cons] at meaning others ⊢
      rw [meaning, others]

/-! ## Scans without a rest -/

/-- No flag of the stock grammar fits words that start with the flag of a port. -/
theorem scan_of_portFlag {flags : List Flag} (stock : flags.Sublist stockFlags) {side : Side} {tokens : List Token}
    {word : String} (spells : side.portFlag.accepts word = true) {more : List String}
    (shape : Token.texts tokens = word :: more) : Flag.scan flags tokens = ⟨[], tokens, flags⟩ := by
  obtain ⟨token, rest, rfl, first, -⟩ := Token.texts_eq_cons_iff.1 shape
  refine greedy_of_misses fun flag member => ?_
  refine Flag.fit?_eq_none_of_lead (Flag.isFront_of_mem_stockFlags (stock.subset member)) ?_
  rw [first]
  have unspelled : ∀ flag ∈ stockFlags, ∀ side ∈ [Side.source, .destination],
      ∀ word ∈ side.portFlag.keyword :: side.portFlag.aliases, flag.lead.accepts word = false := by decide
  exact unspelled flag (stock.subset member) side (by cases side <;> simp) word (Spelling.accepts_iff.1 spells)

/-- A protocol that fits its words leaves the words behind them if its ports are readable, and otherwise words
    that start with the flag of a port. -/
theorem rest_of_protocol {p : Protocol} {ports : List (Side × String)} (hasPorts : p.hasPorts = true)
    {tokens : List Token} {more : List String} (shape : Token.texts tokens = (protocol p ports).words ++ more)
    (quiet : Flag.Portless (scope more)) :
    ∃ fit, (Flag.ofProtocol p).fit? tokens = some fit ∧
      ((protocol p ports).Readable ∧ Token.texts fit.rest = more ∨
        ∃ (side : Side) (others : List String), Token.texts fit.rest = side.portFlag.keyword :: others) := by
  rw [words_protocol] at shape
  obtain ⟨flag, rest, rfl, flagText, behind⟩ := Token.texts_eq_cons_iff.1 shape
  obtain ⟨name, rest, rfl, nameText, behind⟩ := Token.texts_eq_cons_iff.1 behind
  refine ⟨_, fit?_ofProtocol hasPorts (by simp [flagText]) (nameText ▸ isNamed_name p), ?_⟩
  have claims := claims_greedy id ([.source, .destination].map fun side => Flag.portFit? side p)
    (rest.takeWhile fun token => !Protocol.flag.accepts token.text)
  have inside := (texts_takeWhile (fun word => !Protocol.flag.accepts word) rest).trans (congrArg scope behind)
  have outside := (texts_dropWhile (fun word => !Protocol.flag.accepts word) rest).trans
    (congrArg (List.dropWhile fun word => !Protocol.flag.accepts word) behind)
  rw [Token.texts_append, outside]
  by_cases plain : ∀ port ∈ ports, Protocol.flag.accepts port.2 = false
  · rw [List.append_eq, scope_portWords_append plain] at inside
    obtain ⟨claimed, left, perm, readable, remains⟩ := Flag.ports_claimed quiet claims inside
    cases left with
    | nil =>
      rw [List.append_nil] at perm
      refine .inl ⟨fun port member => readable port (perm.subset member), ?_⟩
      rw [List.append_eq, dropScope_portWords_append plain]
      exact (congrArg (· ++ _) remains).trans List.takeWhile_append_dropWhile
    | cons port left => exact .inr ⟨port.1, _, congrArg (· ++ _) remains⟩
  · -- The first value that selects a protocol ends the scope behind the flag of its port.
    have selects : (ports.find? fun port => Protocol.flag.accepts port.2).isSome := by
      simpa [List.find?_isSome] using plain
    obtain ⟨⟨side, value⟩, found⟩ := Option.isSome_iff_exists.1 selects
    obtain ⟨accepts, before, after, rfl, earlier⟩ := List.find?_eq_some_iff_append.1 found
    have cut : scope (Flag.portWords (before ++ (side, value) :: after) ++ more) =
        Flag.portWords before ++ [side.portFlag.keyword] := by
      have accepts : Protocol.flag.accepts value = true := accepts
      rw [Flag.portWords_append, List.append_assoc, scope_portWords_append (by simpa using earlier)]
      simp [scope, protocol_accepts_portFlag, accepts]
    have quiet : Flag.Portless [side.portFlag.keyword] :=
      Flag.portless_nil.cons (side.number?_of_accepts side.portFlag.accepts_keyword)
    obtain ⟨claimed, left, -, -, remains⟩ := Flag.ports_claimed quiet claims (inside.trans cut)
    cases left with
    | nil => exact .inr ⟨side, _, congrArg (· ++ _) remains⟩
    | cons port left => exact .inr ⟨port.1, _, congrArg (· ++ _) remains⟩

theorem readable_of_jumpFit? {a : Action} {target? : Option String} (proper : (jump a target?).Proper)
    {tokens : List Token} {more : List String} {fit : Fit} (shape : Token.texts tokens = (jump a target?).words ++ more)
    (fits : Flag.jump.fit? tokens = some fit) : (jump a target?).Readable := by
  obtain ⟨flag, name, rest, rfl, behind, recognizer⟩ := fit?_jump_eq shape
  rw [recognizer] at fits
  cases option : a.option? with
  | none =>
    obtain rfl : target? = none := by simpa [Proper, option] using proper
    simp [Readable]
  | some word =>
    obtain ⟨target, rfl⟩ : ∃ target, target? = some target := by
      simpa [Proper, option, Option.isSome_iff_exists] using proper
    have both : Token.texts rest = word :: target :: more := by simpa [option] using behind
    obtain ⟨token, rest, rfl, tokenText, last⟩ := Token.texts_eq_cons_iff.1 both
    obtain ⟨value, rest, rfl, rfl, -⟩ := Token.texts_eq_cons_iff.1 last
    have literal : Target.isLiteral value.text = true := by
      simp only [Flag.actionFit?, option, Option.ite_none_right_eq_some, Bool.and_eq_true] at fits
      exact fits.1.2
    simpa [Readable] using literal

/-- A clause is readable if its flag fits its words and does not leave a port in front. -/
theorem Proper.readable_of_fit? {clause : Clause} (proper : clause.Proper) {tokens : List Token} {more : List String}
    {fit : Fit} (shape : Token.texts tokens = clause.words ++ more) (fits : clause.flag.fit? tokens = some fit)
    (quiet : Flag.Portless (scope more)) :
    clause.Readable ∧ Token.texts fit.rest = more ∨
      ∃ (side : Side) (others : List String), Token.texts fit.rest = side.portFlag.keyword :: others := by
  cases clause with
  | protocol p ports =>
    obtain ⟨own, found, result⟩ := rest_of_protocol proper.1 shape quiet
    obtain rfl : own = fit := by simpa [flag, found] using fits
    exact result
  | value c text =>
    rw [words_value proper] at shape
    rw [Flag.fit?_of_valued proper proper.condition?_flag] at fits
    obtain ⟨lead, token, rest, rfl, -, accepted, rfl⟩ := valueFit?_eq_some_iff.1 fits
    obtain ⟨-, rfl, rfl⟩ : lead.text = _ ∧ token.text = text ∧ Token.texts rest = more := by simpa using shape
    exact .inl ⟨accepted, rfl⟩
  | jump a target? =>
    have readable : (jump a target?).Readable := readable_of_jumpFit? proper shape fits
    obtain ⟨own, found, -, rest⟩ := proper.fit?_flag readable shape quiet
    obtain rfl : own = fit := by simpa [found] using fits
    exact .inl ⟨readable, rest⟩

/-- Clauses whose words are recognized without a rest are readable. -/
theorem readable_of_scan {clauses : List Clause} {flags : List Flag} (stock : flags.Sublist stockFlags)
    (h : Fits clauses flags) {tokens : List Token} (shape : Token.texts tokens = allWords clauses)
    (done : (Flag.scan flags tokens).rest = []) : ∀ clause ∈ clauses, clause.Readable := by
  induction clauses generalizing flags tokens with
  | nil => simp
  | cons clause clauses ih =>
    have own : clause.Proper := h.proper clause (by simp)
    have quiet := portless_allWords fun other member => h.proper other (List.mem_cons_of_mem clause member)
    cases fits : clause.flag.fit? tokens with
    | none =>
      have misses : ∀ other ∈ flags, other.fit? tokens = none := by
        intro other member
        by_cases same : other = clause.flag
        · rw [same, fits]
        · exact own.fit?_eq_none (stock.subset member) same shape
      obtain ⟨others, start⟩ := own.words_eq_cons
      have stuck : tokens = [] := by simpa [Flag.scan, greedy_of_misses misses] using done
      simp [stuck, start] at shape
    | some fit =>
      obtain ⟨before, after, rfl, scanned⟩ := h.scan_cons stock shape fits
      have fewer : (before ++ after).Sublist stockFlags := List.Sublist.trans (by simp) stock
      rw [scanned] at done
      -- An unreadable port stays in front of all that is behind it, and no flag fits there.
      rcases own.readable_of_fit? shape fits quiet with ⟨readable, rest⟩ | ⟨side, others, rest⟩
      · simpa using ⟨readable, ih fewer h.tail rest done⟩
      · rw [scan_of_portFlag fewer side.portFlag.accepts_keyword rest] at done
        simp [show fit.rest = [] from done] at rest

end PacketFilter.Grammar.Clause
