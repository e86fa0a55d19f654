import PacketFilter.Grammar.Signature
import PacketFilter.Proofs.Grammar.Ports
import PacketFilter.Proofs.Text.Words

/-!
# Clauses

A clause is what one flag of the stock grammar recognizes: a protocol with its ports, a condition with a
value, or a jump. Clauses are written in the order in which their flags were recognized. Main statement:
`scan_clauses`, the words of readable clauses are recognized as these clauses again, with the ports of each
in order.
-/

namespace PacketFilter

/-- A part whose port number, if it is one, has no needless zeros. -/
def Part.plain : Part → Part
  | .condition (.port side p) (some text) => .condition (.port side p) (some (Port.plain text))
  | part => part

/-- A part is left as it is unless it is a port with a value. -/
theorem Part.plain_cases (part : Part) :
    part.plain = part ∨ ∃ side p text, part = .condition (.port side p) (some text) := by
  cases part with
  | condition c given? =>
    cases c with
    | port side p =>
      cases given? with
      | none => exact .inl rfl
      | some text => exact .inr ⟨side, p, text, rfl⟩
    | _ => exact .inl rfl
  | _ => exact .inl rfl

@[simp] theorem Part.plain_plain (part : Part) : part.plain.plain = part.plain := by
  rcases plain_cases part with same | ⟨side, p, text, rfl⟩
  · rw [same, same]
  · simp [plain]

/-- The condition of a part. -/
def Part.condition? : Part → Option Condition
  | .condition c _ => some c
  | _ => none

/-- The conditions that are a flag with a value, whatever protocol is selected. -/
def Condition.valued : List Condition :=
  [.address .source, .address .destination, .interface .inward, .interface .outward, .state]

theorem Condition.mem_valued {c : Condition} : c ∈ valued ↔ c = .address .source ∨ c = .address .destination ∨
    c = .interface .inward ∨ c = .interface .outward ∨ c = .state := by
  simp [valued]

namespace Grammar

/-- What one flag of the stock grammar says. -/
inductive Clause where
  | protocol (protocol : Protocol) (ports : List (Side × String))
  | value (condition : Condition) (text : String)
  | jump (action : Action) (target? : Option String)

namespace Clause

/-- The parts of a clause, in written order. -/
def parts : Clause → List Part
  | protocol p ports => .condition (.protocol p) none :: Flag.portParts p ports
  | value c text => [.condition c (some text)]
  | jump a target? => [.action a target?]

/-- The written form of a clause. -/
def words (clause : Clause) : List String := clause.parts.flatMap Part.words

/-- The condition that tells the flag of a clause; a jump has none. -/
def condition? : Clause → Option Condition
  | protocol p _ => some (.protocol p)
  | value c _ => some c
  | jump _ _ => none

/-- The flag that recognizes a clause. -/
def flag : Clause → Flag
  | protocol p _ => .ofProtocol p
  | value (.address side) _ => .address side
  | value (.interface direction) _ => .interface direction
  | value _ _ => .state
  | jump _ _ => .jump

/-- The shape of a clause of the stock grammar: a protocol with ports has at most one for each side, the
    flag of a condition takes a value by itself, and a jump has a target if its action needs one. -/
def Proper : Clause → Prop
  | protocol p ports => p.hasPorts = true ∧ (ports.map Prod.fst).Nodup
  | value c _ => c ∈ Condition.valued
  | jump a target? => target?.isSome = a.option?.isSome

/-- A clause is readable when its values are ones that its flags accept. -/
def Readable : Clause → Prop
  | protocol _ ports => ∀ port ∈ ports, (Port.number? port.2).isSome
  | value c text => c.accepts text = true
  | jump _ target? => ∀ target ∈ target?, Target.isLiteral target = true

/-- A clause as a match writes it. -/
def tidy : Clause → Clause
  | protocol p ports => protocol p (Flag.tidyPorts ports)
  | clause => clause

end Clause

/-! ## Flags at the front -/

/-- The spellings of the word in front of a condition, or else of an action. -/
def leadOf : Option Condition → Spelling
  | some c => c.spelling
  | none => Action.jump

namespace Flag

/-- The spellings of the word that a flag starts with. -/
def lead (flag : Flag) : Spelling := leadOf flag.condition?

/-- Whether a flag is looked for at the front of the tokens only. -/
def IsFront : Flag → Prop
  | port _ _ => False
  | _ => True

theorem isFront_of_mem_stockFlags {flag : Flag} (member : flag ∈ stockFlags) : flag.IsFront := by
  simp only [stockFlags, List.mem_cons, List.not_mem_nil, or_false] at member
  rcases member with rfl | rfl | rfl | rfl | rfl | rfl | rfl | rfl <;> exact trivial

theorem valueFit?_eq_none {condition : Condition} {token : Token} {tokens : List Token}
    (other : condition.spelling.accepts token.text = false) : valueFit? condition (token :: tokens) = none := by
  cases tokens <;> simp [valueFit?, other]

/-- A flag does not fit tokens that start with a word which does not spell it. -/
theorem fit?_eq_none_of_lead {flag : Flag} (front : flag.IsFront) {token : Token} {tokens : List Token}
    (other : flag.lead.accepts token.text = false) : flag.fit? (token :: tokens) = none := by
  cases flag with
  | protocol p options =>
    have other : Protocol.flag.accepts token.text = false := other
    cases tokens <;> simp [fit?, protocolFit?, other]
  | port => exact front.elim
  | address => rw [fit?]; exact valueFit?_eq_none other
  | interface => rw [fit?]; exact valueFit?_eq_none other
  | state => rw [fit?]; exact valueFit?_eq_none other
  | jump =>
    have other : Action.jump.accepts token.text = false := other
    cases tokens <;> simp [fit?, jumpFit?, other]

theorem lead_accepts_of_fit? {flag : Flag} (front : flag.IsFront) {token : Token} {tokens : List Token} {fit : Fit}
    (fits : flag.fit? (token :: tokens) = some fit) : flag.lead.accepts token.text = true := by
  by_contra other
  simp [fit?_eq_none_of_lead front (Bool.eq_false_iff.2 other)] at fits

theorem fit?_nil {flag : Flag} : flag.fit? [] = none := by
  cases flag <;> simp [fit?, protocolFit?, portFit?, pairAt?, valueFit?, jumpFit?]

theorem scan_nil (flags : List Flag) : scan flags [] = ⟨[], [], flags⟩ :=
  greedy_of_misses fun _ _ => fit?_nil

theorem lead_accepts_eq_false : ∀ flag ∈ stockFlags, ∀ other ∈ stockFlags, flag.lead ≠ other.lead →
    flag.lead.accepts other.lead.keyword = false := by
  decide

theorem nodup_stockFlags : stockFlags.Nodup := by
  have conditions : (stockFlags.map condition?).Nodup := by decide
  exact conditions.of_map

theorem eq_of_condition? {flag other : Flag} (h : flag ∈ stockFlags) (h' : other ∈ stockFlags)
    (same : flag.condition? = other.condition?) : flag = other := by
  have distinct : (stockFlags.map condition?).Nodup := by decide
  exact List.inj_on_of_nodup_map distinct h h' same

/-- Different flags of the stock grammar that start with the same word are those of two protocols. -/
theorem protocols_of_lead : ∀ flag ∈ stockFlags, ∀ other ∈ stockFlags, flag.lead = other.lead →
    flag.condition? ≠ other.condition? → ∃ p ∈ Protocol.all, ∃ q ∈ Protocol.all,
      p ≠ q ∧ flag.condition? = some (.protocol p) ∧ other.condition? = some (.protocol q) := by
  decide

theorem eq_protocol_of_condition? {flag : Flag} {p : Protocol} (h : flag.condition? = some (.protocol p)) :
    ∃ options, flag = .protocol p options := by
  cases flag <;> simp_all [condition?]

theorem fit?_of_valued {flag : Flag} {c : Condition} (valued : c ∈ Condition.valued) (own : flag.condition? = some c) :
    flag.fit? = valueFit? c := by
  cases flag with
  | protocol | port =>
    obtain rfl := Option.some.inj own
    simp [Condition.valued] at valued
  | jump => cases own
  | _ =>
    obtain rfl := Option.some.inj own
    rw [fit?]

theorem ofProtocol_mem {p : Protocol} (hasPorts : p.hasPorts = true) : Flag.ofProtocol p ∈ stockFlags := by
  cases p with
  | tcp | udp => simp [stockFlags]
  | icmp => cases hasPorts

/-- A flag of the stock grammar is a protocol, a condition with a value behind it, or the jump. -/
theorem stock_cases {flag : Flag} (member : flag ∈ stockFlags) :
    (∃ p : Protocol, p.hasPorts = true ∧ flag = .ofProtocol p) ∨ (∃ c ∈ Condition.valued, flag.condition? = some c) ∨
      flag = .jump := by
  simp only [stockFlags, List.mem_cons, List.not_mem_nil, or_false] at member
  rcases member with rfl | rfl | valued
  · exact .inl ⟨.tcp, rfl, rfl⟩
  · exact .inl ⟨.udp, rfl, rfl⟩
  · rcases valued with rfl | rfl | rfl | rfl | rfl | rfl
    iterate 5 exact .inr (.inl ⟨_, by decide, rfl⟩)
    exact .inr (.inr rfl)

theorem find?_action (a : Action) : Action.all.find? (fun action => action.name == a.name) = some a := by
  rcases a with _ | _ | (_ | _) <;> decide

end Flag

/-! ## The words of a clause -/

namespace Clause

theorem words_protocol (p : Protocol) (ports : List (Side × String)) :
    (protocol p ports).words = Protocol.flag.keyword :: p.name :: Flag.portWords ports := by
  have each : (Flag.portParts p ports).flatMap Part.words = Flag.portWords ports := by
    rw [Flag.portParts, Flag.portWords, List.flatMap_map]
    refine List.flatMap_congr fun port _ => ?_
    obtain ⟨side, text⟩ := port
    cases side <;> rfl
  simp [words, parts, each, Part.words, Part.keyword, Part.value?, Condition.keyword, Condition.spelling]

theorem words_value {c : Condition} {text : String} (proper : (value c text).Proper) :
    (value c text).words = [c.spelling.keyword, text] := by
  rcases Condition.mem_valued.1 proper with rfl | rfl | rfl | rfl | rfl <;> rfl

theorem words_jump (a : Action) (target? : Option String) :
    (jump a target?).words = Action.jump.keyword :: a.name :: (a.option?.toList ++ target?.toList) := by
  simp [words, parts, Part.words, Part.keyword, Part.value?, Action.keyword]

theorem Proper.flag_mem {clause : Clause} (proper : clause.Proper) : clause.flag ∈ stockFlags := by
  cases clause with
  | protocol p ports =>
    exact Flag.ofProtocol_mem proper.1
  | value c text =>
    rcases Condition.mem_valued.1 proper with rfl | rfl | rfl | rfl | rfl <;> simp [flag, stockFlags]
  | jump => simp [flag, stockFlags]

theorem Proper.condition?_flag {clause : Clause} (proper : clause.Proper) :
    clause.flag.condition? = clause.condition? := by
  cases clause with
  | protocol => rfl
  | value c text =>
    rcases Condition.mem_valued.1 proper with rfl | rfl | rfl | rfl | rfl <;> rfl
  | jump => rfl

theorem Proper.words_eq_cons {clause : Clause} (proper : clause.Proper) :
    ∃ others, clause.words = clause.flag.lead.keyword :: others := by
  cases clause with
  | protocol p ports => exact ⟨_, words_protocol p ports⟩
  | value c text =>
    refine ⟨[text], ?_⟩
    rw [words_value proper, Flag.lead, proper.condition?_flag]
    rfl
  | jump a target? => exact ⟨_, words_jump a target?⟩

theorem isNamed_name_eq_false {p q : Protocol} (differ : p ≠ q) : p.isNamed q.name = false := by
  cases p <;> cases q <;> first | exact absurd rfl differ | decide

theorem Proper.eq_protocol {clause : Clause} (proper : clause.Proper) {p : Protocol}
    (h : clause.condition? = some (.protocol p)) : ∃ ports, clause = .protocol p ports := by
  cases clause with
  | protocol q ports => simp_all [condition?]
  | value c text => simp_all [condition?, Proper, Condition.valued]
  | jump => simp [condition?] at h

/-- Only its own flag fits the words of a clause. -/
theorem Proper.fit?_eq_none {clause : Clause} (proper : clause.Proper) {other : Flag} (member : other ∈ stockFlags)
    (differ : other ≠ clause.flag) {tokens : List Token} {more : List String}
    (shape : Token.texts tokens = clause.words ++ more) : other.fit? tokens = none := by
  by_cases leads : other.lead = clause.flag.lead
  · have conditions : other.condition? ≠ clause.flag.condition? := fun same =>
      differ (Flag.eq_of_condition? member proper.flag_mem same)
    obtain ⟨p, -, q, -, names, isProtocol, own⟩ :=
      Flag.protocols_of_lead other member clause.flag proper.flag_mem leads conditions
    obtain ⟨options, rfl⟩ := Flag.eq_protocol_of_condition? isProtocol
    obtain ⟨ports, rfl⟩ := proper.eq_protocol (proper.condition?_flag.symm.trans own)
    rw [words_protocol] at shape
    obtain ⟨flag, rest, rfl, -, behind⟩ := Token.texts_eq_cons_iff.1 shape
    obtain ⟨name, rest, rfl, nameText, -⟩ := Token.texts_eq_cons_iff.1 behind
    simp [Flag.fit?, Flag.protocolFit?, nameText, isNamed_name_eq_false names]
  · obtain ⟨others, start⟩ := proper.words_eq_cons
    rw [start] at shape
    obtain ⟨flag, rest, rfl, flagText, -⟩ := Token.texts_eq_cons_iff.1 shape
    refine Flag.fit?_eq_none_of_lead (Flag.isFront_of_mem_stockFlags member) ?_
    rw [flagText]
    exact Flag.lead_accepts_eq_false other member clause.flag proper.flag_mem leads

/-- The words in front of the next protocol. -/
def scope (words : List String) : List String := words.takeWhile fun word => !Protocol.flag.accepts word

theorem number?_of_protocol {word : String} (h : Protocol.flag.accepts word = true) : Port.number? word = none := by
  rw [Spelling.accepts_iff] at h
  simp only [Protocol.flag, List.mem_cons, List.not_mem_nil, or_false] at h
  rcases h with rfl | rfl <;> exact Port.number?_eq_none rfl (by decide)

theorem protocol_accepts_portFlag (side : Side) : Protocol.flag.accepts side.portFlag.keyword = false := by
  cases side <;> decide

/-- Ports with values that do not select a protocol lie in the scope. -/
theorem protocol_accepts_portWords {ports : List (Side × String)}
    (plain : ∀ port ∈ ports, Protocol.flag.accepts port.2 = false) {word : String}
    (member : word ∈ Flag.portWords ports) : Protocol.flag.accepts word = false := by
  obtain ⟨port, inside, member⟩ := List.mem_flatMap.1 member
  have either : word = port.1.portFlag.keyword ∨ word = port.2 := by simpa using member
  rcases either with rfl | rfl
  · exact protocol_accepts_portFlag port.1
  · exact plain port inside

theorem scope_portWords_append {ports : List (Side × String)}
    (plain : ∀ port ∈ ports, Protocol.flag.accepts port.2 = false) (more : List String) :
    scope (Flag.portWords ports ++ more) = Flag.portWords ports ++ scope more :=
  List.takeWhile_append_of_pos fun _ member => by simp [protocol_accepts_portWords plain member]

theorem dropScope_portWords_append {ports : List (Side × String)}
    (plain : ∀ port ∈ ports, Protocol.flag.accepts port.2 = false) (more : List String) :
    (Flag.portWords ports ++ more).dropWhile (fun word => !Protocol.flag.accepts word) =
      more.dropWhile fun word => !Protocol.flag.accepts word :=
  List.dropWhile_append_of_pos fun _ member => by simp [protocol_accepts_portWords plain member]

theorem fit?_ofProtocol_eq {p : Protocol} (hasPorts : p.hasPorts = true) :
    (Flag.ofProtocol p).fit? = Flag.protocolFit? p [Flag.portFit? .source p, Flag.portFit? .destination p] := by
  simp [Flag.ofProtocol, hasPorts, Flag.fit?, Flag.recognizers]

/-- The match of a protocol: its ports are looked for in its scope. -/
theorem fit?_ofProtocol {p : Protocol} (hasPorts : p.hasPorts = true) {flag name : Token} {rest : List Token}
    (flagText : Protocol.flag.accepts flag.text = true) (nameText : p.isNamed name.text = true) :
    (Flag.ofProtocol p).fit? (flag :: name :: rest) =
      let inScope := fun token : Token => !Protocol.flag.accepts token.text
      let scan := greedy id [Flag.portFit? .source p, Flag.portFit? .destination p] (rest.takeWhile inScope)
      some ⟨.ofTyped (.condition (.protocol p) none) [flag.text, name.text] :: scan.elements,
        scan.rest ++ rest.dropWhile inScope⟩ := by
  simp [fit?_ofProtocol_eq hasPorts, Flag.protocolFit?, flagText, nameText]

theorem texts_takeWhile (p : String → Bool) (tokens : List Token) :
    Token.texts (tokens.takeWhile fun token => p token.text) = (Token.texts tokens).takeWhile p := by
  simp [Token.texts, List.takeWhile_map, Function.comp_def]

theorem texts_dropWhile (p : String → Bool) (tokens : List Token) :
    Token.texts (tokens.dropWhile fun token => p token.text) = (Token.texts tokens).dropWhile p := by
  simp [Token.texts, List.dropWhile_map, Function.comp_def]

theorem isNamed_name (p : Protocol) : p.isNamed p.name = true := by
  cases p <;> decide

theorem fit?_protocol {p : Protocol} {ports : List (Side × String)} (proper : (protocol p ports).Proper)
    (readable : (protocol p ports).Readable) {tokens : List Token} {more : List String}
    (shape : Token.texts tokens = (protocol p ports).words ++ more) (quiet : Flag.Portless (scope more)) :
    ∃ fit, (Flag.ofProtocol p).fit? tokens = some fit ∧
      PacketFilter.parts fit.elements = (protocol p (Flag.tidyPorts ports)).parts ∧ Token.texts fit.rest = more := by
  obtain ⟨hasPorts, single⟩ := proper
  rw [words_protocol] at shape
  obtain ⟨flag, rest, rfl, flagText, behind⟩ := Token.texts_eq_cons_iff.1 shape
  obtain ⟨name, rest, rfl, nameText, behind⟩ := Token.texts_eq_cons_iff.1 behind
  have plain : ∀ port ∈ ports, Protocol.flag.accepts port.2 = false := by
    intro port member
    rw [Bool.eq_false_iff]
    intro accepts
    have number := readable port member
    simp [number?_of_protocol accepts] at number
  have inside := (texts_takeWhile (fun word => !Protocol.flag.accepts word) rest).trans
    ((congrArg scope behind).trans (scope_portWords_append plain more))
  have outside := (texts_dropWhile (fun word => !Protocol.flag.accepts word) rest).trans
    ((congrArg _ behind).trans (dropScope_portWords_append plain more))
  obtain ⟨meaning, left⟩ := @Flag.greedy_ports p _ _ _ quiet inside readable single
  refine ⟨_, fit?_ofProtocol hasPorts (by simp [flagText]) (nameText ▸ isNamed_name p), ?_, ?_⟩
  · simp only [PacketFilter.parts, List.map_cons, Element.part_ofTyped] at meaning ⊢
    rw [meaning]
    rfl
  · rw [Token.texts_append, left, outside]
    exact List.takeWhile_append_dropWhile

theorem fit?_value {c : Condition} {text : String} (proper : (value c text).Proper) (accepted : c.accepts text = true)
    {tokens : List Token} {more : List String} (shape : Token.texts tokens = (value c text).words ++ more) :
    ∃ fit, (value c text).flag.fit? tokens = some fit ∧
      PacketFilter.parts fit.elements = [.condition c (some text)] ∧ Token.texts fit.rest = more := by
  rw [words_value proper] at shape
  obtain ⟨flag, rest, rfl, flagText, behind⟩ := Token.texts_eq_cons_iff.1 shape
  obtain ⟨token, rest, rfl, rfl, left⟩ := Token.texts_eq_cons_iff.1 behind
  have fits : Flag.valueFit? c (flag :: token :: rest) =
      some ⟨[.ofTyped (.condition c (some token.text)) [flag.text, token.text]], rest⟩ := by
    simp [Flag.valueFit?, flagText, accepted]
  exact ⟨_, by rw [Flag.fit?_of_valued proper proper.condition?_flag, fits], rfl, left⟩

/-- The words of a jump are matched as its action, and what it is matched with depends on the target only. -/
theorem fit?_jump_eq {a : Action} {target? : Option String} {tokens : List Token} {more : List String}
    (shape : Token.texts tokens = (jump a target?).words ++ more) :
    ∃ flag name rest, tokens = flag :: name :: rest ∧
      Token.texts rest = a.option?.toList ++ target?.toList ++ more ∧
      Flag.jump.fit? tokens = Flag.actionFit? a flag name rest := by
  rw [words_jump] at shape
  obtain ⟨flag, rest, rfl, flagText, behind⟩ := Token.texts_eq_cons_iff.1 shape
  obtain ⟨name, rest, rfl, nameText, behind⟩ := Token.texts_eq_cons_iff.1 behind
  have found : Action.all.find? (fun action => action.name == name.text) = some a := by
    rw [nameText, Flag.find?_action]
  exact ⟨flag, name, rest, rfl, behind, by simp [Flag.fit?, Flag.jumpFit?, flagText, found]⟩

theorem fit?_jump {a : Action} {target? : Option String} (proper : (jump a target?).Proper)
    (readable : (jump a target?).Readable) {tokens : List Token} {more : List String}
    (shape : Token.texts tokens = (jump a target?).words ++ more) :
    ∃ fit, Flag.jump.fit? tokens = some fit ∧ PacketFilter.parts fit.elements = [.action a target?] ∧
      Token.texts fit.rest = more := by
  obtain ⟨flag, name, rest, rfl, behind, fits⟩ := fit?_jump_eq shape
  rw [fits]
  cases option : a.option? with
  | none =>
    obtain rfl : target? = none := by simpa [Proper, option] using proper
    exact ⟨_, by rw [Flag.actionFit?, option], rfl, by simpa [option] using behind⟩
  | some word =>
    obtain ⟨target, rfl⟩ : ∃ target, target? = some target := by
      simpa [Proper, option, Option.isSome_iff_exists] using proper
    have both : Token.texts rest = word :: target :: more := by simpa [option] using behind
    obtain ⟨token, rest, rfl, tokenText, last⟩ := Token.texts_eq_cons_iff.1 both
    obtain ⟨value, rest, rfl, rfl, left⟩ := Token.texts_eq_cons_iff.1 last
    have accepted : Target.isLiteral value.text = true := readable value.text rfl
    exact ⟨_, by simp [Flag.actionFit?, option, tokenText, accepted]; rfl, rfl, left⟩

/-- The words of a readable clause are recognized as it, if no port stands behind it in its scope. -/
theorem Proper.fit?_flag {clause : Clause} (proper : clause.Proper) (readable : clause.Readable) {tokens : List Token}
    {more : List String} (shape : Token.texts tokens = clause.words ++ more) (quiet : Flag.Portless (scope more)) :
    ∃ fit, clause.flag.fit? tokens = some fit ∧ PacketFilter.parts fit.elements = clause.tidy.parts ∧
      Token.texts fit.rest = more := by
  cases clause with
  | protocol p ports => exact fit?_protocol proper readable shape quiet
  | value c text => exact fit?_value proper readable shape
  | jump a target? => exact fit?_jump proper readable shape

/-! ## Lists of clauses -/

/-- The parts of clauses, one after the other. -/
def allParts (clauses : List Clause) : List Part := clauses.flatMap parts

/-- The words of clauses, one after the other. -/
def allWords (clauses : List Clause) : List String := clauses.flatMap words

@[simp] theorem allParts_cons (clause : Clause) (clauses : List Clause) :
    allParts (clause :: clauses) = clause.parts ++ allParts clauses := rfl

@[simp] theorem allWords_cons (clause : Clause) (clauses : List Clause) :
    allWords (clause :: clauses) = clause.words ++ allWords clauses := rfl

theorem flatMap_words_allParts (clauses : List Clause) : (allParts clauses).flatMap Part.words = allWords clauses := by
  rw [allParts, List.flatMap_assoc]
  rfl

/-! ## Clauses in tidy form -/

@[simp] theorem tidy_tidy (clause : Clause) : clause.tidy.tidy = clause.tidy := by
  cases clause <;> simp [tidy, Flag.tidyPorts_tidyPorts]

@[simp] theorem flag_tidy (clause : Clause) : clause.tidy.flag = clause.flag := by
  cases clause <;> rfl

theorem Proper.tidy {clause : Clause} (proper : clause.Proper) : clause.tidy.Proper := by
  cases clause with
  | protocol p ports =>
    refine ⟨proper.1, ?_⟩
    have sides := (Flag.tidyPorts_perm ports).map Prod.fst
    rw [List.map_map] at sides
    exact sides.nodup_iff.2 proper.2
  | _ => exact proper

theorem Readable.tidy {clause : Clause} (readable : clause.Readable) : clause.tidy.Readable := by
  cases clause with
  | protocol p ports =>
    intro port member
    obtain ⟨other, inside, rfl⟩ := List.mem_map.1 ((Flag.tidyPorts_perm ports).subset member)
    rw [Port.number?_plain]
    exact readable other inside
  | _ => exact readable

/-- The parts of a clause in tidy form are those of the clause in another order, without needless zeros. -/
theorem Proper.parts_tidy_perm {clause : Clause} (proper : clause.Proper) :
    clause.tidy.parts.Perm (clause.parts.map Part.plain) := by
  cases clause with
  | protocol p ports =>
    have plain : (Flag.portParts p ports).map Part.plain =
        Flag.portParts p (ports.map fun port => (port.1, Port.plain port.2)) := by
      simp [Flag.portParts, Part.plain, Function.comp_def]
    simp only [Clause.tidy, parts, List.map_cons, plain]
    exact ((Flag.tidyPorts_perm ports).map _).cons _
  | value c text =>
    rcases Condition.mem_valued.1 proper with rfl | rfl | rfl | rfl | rfl <;> exact .refl _
  | jump => exact .refl _

theorem allParts_tidy_perm {clauses : List Clause} (proper : ∀ clause ∈ clauses, clause.Proper) :
    (allParts (clauses.map Clause.tidy)).Perm ((allParts clauses).map Part.plain) := by
  induction clauses with
  | nil => exact .nil
  | cons clause clauses ih =>
    rw [List.map_cons, allParts_cons, allParts_cons, List.map_append]
    exact (proper clause (by simp)).parts_tidy_perm.append (ih fun other member => proper other (by simp [member]))

/-! ## Scanning the words of clauses -/

/-- A word that is neither a number nor the flag of a port. -/
def Plain (word : String) : Prop := Port.number? word = none ∧ ∀ side : Side, side.portFlag.accepts word = false

theorem plain_of_dash {word : String} {cs : List Char} (start : word.toList = '-' :: cs)
    (source : Side.source.portFlag.accepts word = false) (destination : Side.destination.portFlag.accepts word = false) :
    Plain word :=
  ⟨Port.number?_eq_none start (by decide), fun side => by cases side <;> assumption⟩

theorem plain_lead {flag : Flag} (member : flag ∈ stockFlags) : Plain flag.lead.keyword := by
  simp only [stockFlags, List.mem_cons, List.not_mem_nil, or_false] at member
  rcases member with rfl | rfl | rfl | rfl | rfl | rfl | rfl | rfl <;>
    exact plain_of_dash rfl (by decide) (by decide)

theorem plain_option {a : Action} {word : String} (h : a.option? = some word) : Plain word := by
  rcases a with _ | _ | (_ | _) <;> simp only [Action.option?, reduceCtorEq, Option.some.injEq] at h <;> subst h <;>
    exact plain_of_dash rfl (by decide) (by decide)

/-- A plain word and any word in front of words without a port. -/
theorem portless_scope_pair {words : List String} (h : Flag.Portless (scope words)) {word : String} (plain : Plain word)
    (other : String) : Flag.Portless (scope (word :: other :: words)) := by
  by_cases first : Protocol.flag.accepts word = true
  · simpa [scope, first] using Flag.portless_nil
  by_cases second : Protocol.flag.accepts other = true
  · simpa [scope, first, second] using Flag.portless_nil.cons plain.1
  · simpa [scope, first, second] using @Flag.Portless.cons_cons _ h word other plain.1 plain.2

/-- No port stands in the scope in front of clauses. -/
theorem portless_allWords {clauses : List Clause} (proper : ∀ clause ∈ clauses, clause.Proper) :
    Flag.Portless (scope (allWords clauses)) := by
  induction clauses with
  | nil => exact Flag.portless_nil
  | cons clause clauses ih =>
    have quiet := ih fun other member => proper other (List.mem_cons_of_mem _ member)
    have own : clause.Proper := proper clause (by simp)
    have lead := plain_lead own.flag_mem
    rw [allWords_cons]
    cases clause with
    | protocol p ports => simpa [words_protocol, scope] using Flag.portless_nil
    | value c text =>
      obtain ⟨others, start⟩ := own.words_eq_cons
      rw [words_value own] at start ⊢
      rw [(List.cons.inj start).1]
      exact portless_scope_pair quiet lead text
    | jump a target? =>
      rw [words_jump]
      cases option : a.option? with
      | none =>
        obtain rfl : target? = none := by simpa [Proper, option] using own
        exact portless_scope_pair quiet lead a.name
      | some word =>
        obtain ⟨target, rfl⟩ : ∃ target, target? = some target := by
          simpa [Proper, option, Option.isSome_iff_exists] using own
        exact portless_scope_pair (portless_scope_pair quiet (plain_option option) target) lead a.name

/-- What clauses need to be recognized by flags: their flags are among them, each at most once. -/
structure Fits (clauses : List Clause) (flags : List Flag) : Prop where
  proper : ∀ clause ∈ clauses, clause.Proper
  single : (clauses.map flag).Nodup
  among : ∀ clause ∈ clauses, clause.flag ∈ flags

theorem Fits.tidy {clauses : List Clause} {flags : List Flag} (h : Fits clauses flags) :
    Fits (clauses.map Clause.tidy) flags := by
  refine ⟨?_, by simpa [List.map_map, Function.comp_def] using h.single, ?_⟩
  · simpa using fun clause member => (h.proper clause member).tidy
  · simpa using h.among

theorem Fits.tail {clause : Clause} {clauses : List Clause} {before after : List Flag}
    (h : Fits (clause :: clauses) (before ++ clause.flag :: after)) : Fits clauses (before ++ after) := by
  obtain ⟨fresh, single⟩ := List.nodup_cons.1 h.single
  refine ⟨fun other member => h.proper other (by simp [member]), single, fun other member => ?_⟩
  have inside := h.among other (List.mem_cons_of_mem _ member)
  have differ : other.flag ≠ clause.flag := fun same => fresh (same ▸ List.mem_map_of_mem member)
  simpa [differ] using inside

/-- The first step of a scan of clauses: the flag of the first clause is claimed, and no other flag fits. -/
theorem Fits.scan_cons {clause : Clause} {clauses : List Clause} {flags : List Flag} (stock : flags.Sublist stockFlags)
    (h : Fits (clause :: clauses) flags) {tokens : List Token} {fit : Fit}
    (shape : Token.texts tokens = allWords (clause :: clauses)) (fits : clause.flag.fit? tokens = some fit) :
    ∃ before after, flags = before ++ clause.flag :: after ∧
      Flag.scan flags tokens =
        let scan := Flag.scan (before ++ after) fit.rest
        ⟨fit.elements ++ scan.elements, scan.rest, scan.unclaimed⟩ := by
  obtain ⟨before, after, rfl, first⟩ := List.eq_append_cons_of_mem (h.among clause (by simp))
  refine ⟨before, after, rfl, greedy_of_fits (fun other member => ?_) fits⟩
  exact (h.proper clause (by simp)).fit?_eq_none (stock.subset (by simp [member]))
    (fun same => first (same ▸ member)) shape

/-- The words of readable clauses are recognized as these clauses, each in tidy form. -/
theorem scan_clauses {clauses : List Clause} {flags : List Flag} (stock : flags.Sublist stockFlags)
    (h : Fits clauses flags) (readable : ∀ clause ∈ clauses, clause.Readable) {tokens : List Token}
    (shape : Token.texts tokens = allWords clauses) :
    PacketFilter.parts (Flag.scan flags tokens).elements = allParts (clauses.map tidy) ∧
      (Flag.scan flags tokens).rest = [] := by
  induction clauses generalizing flags tokens with
  | nil =>
    obtain rfl : tokens = [] := List.map_eq_nil_iff.1 shape
    rw [Flag.scan_nil]
    exact ⟨rfl, rfl⟩
  | cons clause clauses ih =>
    have proper : ∀ other ∈ clauses, other.Proper := fun other member => h.proper other (by simp [member])
    -- Behind the clause no port stands in its scope, so its match takes its own ports only.
    obtain ⟨fit, fits, meaning, rest⟩ := (h.proper clause (by simp)).fit?_flag (readable clause (by simp)) shape
      (portless_allWords proper)
    obtain ⟨before, after, rfl, scanned⟩ := h.scan_cons stock shape fits
    obtain ⟨others, done⟩ := ih (List.Sublist.trans (by simp) stock) h.tail
      (fun other member => readable other (by simp [member])) rest
    rw [scanned]
    refine ⟨?_, done⟩
    simp only [PacketFilter.parts, List.map_append, List.map_cons, allParts_cons] at meaning others ⊢
    rw [meaning, others]

end Clause

end Grammar

end PacketFilter
