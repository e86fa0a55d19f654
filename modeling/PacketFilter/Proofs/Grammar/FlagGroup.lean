import PacketFilter.Proofs.Grammar.Typed

/-!
# Flag groups

How a typed flag is told from others: its first word spells its flag and no other, and its values are not taken for
the flag of a protocol or of a port. Main statements: `condition?_of_fit?`, only the flag of the first group fits,
and `fit?_group`, a group that is no protocol and no port is recognized alone.
-/

namespace PacketFilter

open Grammar

theorem Protocol.eq_of_isNamed {p q : Protocol} {name : String} (named : p.isNamed name = true)
    (named' : q.isNamed name = true) : p = q := by
  simp only [isNamed, Text.equalIgnoringCase, beq_iff_eq] at named named'
  have same := named.trans named'.symm
  revert same
  cases p <;> cases q <;> decide

namespace FlagGroup

/-- Whether a group selects a protocol. -/
def isProtocol (group : FlagGroup) : Bool :=
  match group.part.condition? with
  | some (.protocol _) => true
  | _ => false

/-- Whether a group is a port. -/
def isPort (group : FlagGroup) : Bool :=
  match group.part.condition? with
  | some (.port _ _) => true
  | _ => false

theorem exists_of_isProtocol {group : FlagGroup} (isProtocol : group.isProtocol = true) :
    ∃ p, group.part.condition? = some (.protocol p) := by
  unfold FlagGroup.isProtocol at isProtocol
  split at isProtocol
  · exact ⟨_, ‹_›⟩
  · cases isProtocol

theorem isPort_iff {group : FlagGroup} : group.isPort = true ↔ ∃ side p, group.part.condition? = some (.port side p) := by
  unfold isPort
  cases group.part.condition? with
  | none => simp
  | some c => cases c <;> simp

/-! ## The words of a group -/

/-- The spellings of the word that a group starts with. -/
def lead (group : FlagGroup) : Spelling := leadOf group.part.condition?

/-- The spellings of all flags. -/
def leads : List Spelling :=
  [Protocol.flag, Side.source.portFlag, Side.destination.portFlag] ++ Condition.valued.map Condition.spelling ++ [Action.jump]

theorem eq_of_accepts : ∀ {a b : Spelling}, a ∈ leads → b ∈ leads → ∀ {word : String}, a.accepts word = true →
    b.accepts word = true → a = b := by
  have disjoint : ∀ a ∈ leads, ∀ b ∈ leads, a ≠ b → ∀ word ∈ a.keyword :: a.aliases, b.accepts word = false := by decide
  intro a b ha hb word accepts accepts'
  by_contra differ
  rw [disjoint a ha b hb differ word (Spelling.accepts_iff.1 accepts)] at accepts'
  cases accepts'

theorem words_eq_cons (group : FlagGroup) :
    ∃ flag values, group.words = flag :: values ∧ group.lead ∈ leads ∧ group.lead.accepts flag = true := by
  have jump : Action.jump ∈ leads := by decide
  obtain ⟨part, words, spelled⟩ := group
  cases spelled with
  | protocol hasPorts spells names =>
    have protocol : Protocol.flag ∈ leads := by decide
    exact ⟨_, _, rfl, protocol, spells⟩
  | @port side p _ _ _ spells reads =>
    have port : side.portFlag ∈ leads := by cases side <;> decide
    rw [← Condition.spelling_port side p] at port spells
    exact ⟨_, _, rfl, port, spells⟩
  | value valued spells accepted =>
    refine ⟨_, _, rfl, ?_, spells⟩
    exact List.mem_append_left _ (List.mem_append_right _ (List.mem_map_of_mem valued))
  | jump bare spells => exact ⟨_, _, rfl, jump, spells⟩
  | redirect needs spells literal => exact ⟨_, _, rfl, jump, spells⟩

theorem isProtocol_iff {group : FlagGroup} : group.isProtocol = true ↔ group.lead = Protocol.flag := by
  unfold isProtocol lead leadOf
  cases group.part.condition? with
  | none => decide
  | some c => rcases c with _ | ⟨_ | _, _⟩ | (_ | _) | (_ | _) | _ <;> simp [Condition.spelling, Protocol.flag]

theorem lead_eq_portFlag_iff {group : FlagGroup} {side : Side} :
    group.lead = side.portFlag ↔ ∃ p, group.part.condition? = some (.port side p) := by
  unfold lead leadOf
  cases group.part.condition? with
  | none => cases side <;> simp [Action.jump, Side.portFlag, Condition.spelling]
  | some c =>
    rcases c with _ | ⟨_ | _, _⟩ | (_ | _) | (_ | _) | _ <;> cases side <;>
      simp [Condition.spelling, Side.portFlag, Protocol.flag]

theorem isNamed_of_condition? {group : FlagGroup} {p : Protocol} (isProtocol : group.part.condition? = some (.protocol p)) :
    ∃ flag name, group.words = [flag, name] ∧ Protocol.flag.accepts flag = true ∧ p.isNamed name = true ∧
      p.hasPorts = true ∧ group.part = .condition (.protocol p) none := by
  obtain ⟨part, words, spelled⟩ := group
  cases spelled with
  | protocol hasPorts spells names =>
    obtain rfl : _ = p := by simpa [Part.condition?] using isProtocol
    exact ⟨_, _, rfl, spells, names, hasPorts, rfl⟩
  | value valued spells accepted =>
    obtain rfl : _ = Condition.protocol p := by simpa [Part.condition?] using isProtocol
    simp [Condition.valued] at valued
  | _ => simp [Part.condition?] at isProtocol

theorem port_of_condition? {group : FlagGroup} {side : Side} {p : Protocol}
    (isPort : group.part.condition? = some (.port side p)) :
    ∃ flag value number, group.words = [flag, value] ∧ side.portFlag.accepts flag = true ∧
      Port.number? value = some number ∧ group.part = .condition (.port side p) (some number.toNat.repr) := by
  obtain ⟨part, words, spelled⟩ := group
  cases spelled with
  | port spells reads =>
    obtain ⟨rfl, rfl⟩ : _ = side ∧ _ = p := by simpa [Part.condition?] using isPort
    exact ⟨_, _, _, rfl, spells, reads, rfl⟩
  | value valued spells accepted =>
    obtain rfl : _ = Condition.port side p := by simpa [Part.condition?] using isPort
    simp [Condition.valued] at valued
  | _ => simp [Part.condition?] at isPort

/-- The words that a protocol or its ports are found by. -/
def markers : List String := ["-p", "--protocol", "--sport", "--source-port", "--dport", "--destination-port"]

theorem mem_markers_of_protocol {word : String} (accepts : Protocol.flag.accepts word = true) : word ∈ markers := by
  rw [Spelling.accepts_iff] at accepts
  exact List.mem_append_left _ accepts

theorem mem_markers_of_port {side : Side} {word : String} (accepts : side.portFlag.accepts word = true) :
    word ∈ markers := by
  rw [Spelling.accepts_iff] at accepts
  revert word
  cases side <;> decide

theorem number?_of_mem_markers {word : String} (member : word ∈ markers) : Port.number? word = none := by
  revert word
  decide

/-- The values of a group are not taken for the flag of a protocol or of a port. -/
def IsQuiet (group : FlagGroup) : Prop := ∀ word ∈ group.words.tail, word ∉ markers

theorem isQuiet_of_plain {group : FlagGroup} (plain : ∀ direction name,
    group.part = .condition (.interface direction) (some name) → name.toList.head? ≠ some '-') : group.IsQuiet := by
  have unnamed (a : Action) : a.name ∉ markers := by
    rcases a with _ | _ | (_ | _) <;> decide
  obtain ⟨part, words, spelled⟩ := group
  intro word member marker
  cases spelled with
  | @protocol p _ _ hasPorts spells names =>
    obtain rfl : word = _ := by simpa using member
    have unnamed : ∀ word ∈ markers, ∀ p ∈ Protocol.all, p.isNamed word = false := by decide
    rw [unnamed word marker p (by cases p <;> decide)] at names
    cases names
  | port spells reads =>
    obtain rfl : word = _ := by simpa using member
    rw [number?_of_mem_markers marker] at reads
    cases reads
  | @value c _ _ valued spells accepted =>
    obtain rfl : word = _ := by simpa using member
    have dash : ∀ word ∈ markers, word.toList.head? = some '-' := by decide
    have refused : ∀ word ∈ markers, Network.isLiteral word = false ∧ Condition.states.contains word = false := by decide
    cases c with
    | interface direction => exact plain direction word rfl (dash word marker)
    | address side => simp [Condition.accepts, (refused word marker).1] at accepted
    | state => simp only [Condition.accepts, (refused word marker).2, Bool.false_eq_true] at accepted
    | protocol | port => simp [Condition.valued] at valued
  | @jump a _ bare spells =>
    obtain rfl : word = a.name := by simpa using member
    exact unnamed a marker
  | @redirect a _ option target needs spells literal =>
    have member : word = a.name ∨ word = option ∨ word = target := by simpa using member
    rcases member with rfl | rfl | rfl
    · exact unnamed a marker
    · have foreign : ∀ word ∈ markers, a.option? ≠ some word := by rcases a with _ | _ | (_ | _) <;> decide
      exact foreign word marker needs
    · have refused : ∀ word ∈ markers, Target.isLiteral word = false := by decide
      rw [refused word marker] at literal
      cases literal

theorem protocol_accepts {group : FlagGroup} (quiet : group.IsQuiet) {word : String} (member : word ∈ group.words)
    (accepts : Protocol.flag.accepts word = true) : group.isProtocol = true := by
  obtain ⟨flag, values, words, isLead, spells⟩ := group.words_eq_cons
  rw [words] at member
  rcases List.mem_cons.1 member with rfl | inside
  · exact isProtocol_iff.2 (eq_of_accepts isLead (by decide) spells accepts)
  · exact absurd (mem_markers_of_protocol accepts) (quiet word (by simpa [words] using inside))

theorem portFlag_accepts {group : FlagGroup} (quiet : group.IsQuiet) {side : Side} {word : String}
    (member : word ∈ group.words) (accepts : side.portFlag.accepts word = true) :
    ∃ p, group.part.condition? = some (.port side p) := by
  obtain ⟨flag, values, words, isLead, spells⟩ := group.words_eq_cons
  rw [words] at member
  rcases List.mem_cons.1 member with rfl | inside
  · exact lead_eq_portFlag_iff.1 (eq_of_accepts isLead (by cases side <;> decide) spells accepts)
  · exact absurd (mem_markers_of_port accepts) (quiet word (by simpa [words] using inside))

/-- The words in front of the next protocol are those of the groups in front of it. -/
theorem span_allWords {groups : List FlagGroup} (quiet : ∀ group ∈ groups, group.IsQuiet) :
    (allWords groups).takeWhile (fun word => !Protocol.flag.accepts word) =
        allWords (groups.takeWhile fun group => !group.isProtocol) ∧
      (allWords groups).dropWhile (fun word => !Protocol.flag.accepts word) =
        allWords (groups.dropWhile fun group => !group.isProtocol) := by
  induction groups with
  | nil => exact ⟨rfl, rfl⟩
  | cons group groups ih =>
    obtain ⟨own, others⟩ := List.forall_mem_cons.1 quiet
    obtain ⟨inside, outside⟩ := ih others
    by_cases isProtocol : group.isProtocol = true
    · obtain ⟨flag, values, words, -, spells⟩ := group.words_eq_cons
      rw [isProtocol_iff.1 isProtocol] at spells
      simp [isProtocol, words, spells, allWords]
    · have passes : ∀ word ∈ group.words, (!Protocol.flag.accepts word) = true := by
        intro word member
        rw [Bool.not_eq_true']
        exact Bool.eq_false_iff.2 fun accepts => isProtocol (protocol_accepts own member accepts)
      rw [allWords_cons, List.takeWhile_append_of_pos passes, List.dropWhile_append_of_pos passes, inside, outside]
      simp [isProtocol]

end FlagGroup

/-! ## Recognizing a group -/

namespace Grammar.Flag

open FlagGroup

theorem lead_mem_leads : ∀ flag ∈ stockFlags, flag.lead ∈ leads := by
  decide

theorem eq_jump_of_condition? {flag : Flag} (own : flag.condition? = none) : flag = .jump := by
  cases flag <;> first | rfl | cases own

/-- Only one flag of the stock grammar fits tokens. -/
theorem eq_of_fit? {flag other : Flag} (member : flag ∈ stockFlags) (isOther : other ∈ stockFlags) {tokens : List Token}
    {fit found : Fit} (fits : flag.fit? tokens = some fit) (fits' : other.fit? tokens = some found) : flag = other := by
  rcases tokens with _ | ⟨token, rest⟩
  · simp [fit?_nil] at fits
  have leads := eq_of_accepts (lead_mem_leads flag member) (lead_mem_leads other isOther)
    (lead_accepts_of_fit? (isFront_of_mem_stockFlags member) fits)
    (lead_accepts_of_fit? (isFront_of_mem_stockFlags isOther) fits')
  by_contra differ
  have conditions : flag.condition? ≠ other.condition? := fun same => differ (eq_of_condition? member isOther same)
  -- The flags of two protocols start with one word, and the name behind it tells them apart.
  obtain ⟨p, -, q, -, apart, isProtocol, isProtocol'⟩ := protocols_of_lead flag member other isOther leads conditions
  obtain ⟨options, rfl⟩ := eq_protocol_of_condition? isProtocol
  obtain ⟨options', rfl⟩ := eq_protocol_of_condition? isProtocol'
  rw [fit?] at fits fits'
  obtain ⟨_, name, _, split, -, named, -⟩ := Clause.protocolFit?_eq_some_iff.1 fits
  obtain ⟨_, name', _, split', -, named', -⟩ := Clause.protocolFit?_eq_some_iff.1 fits'
  obtain ⟨-, rfl, -⟩ : _ ∧ name = name' ∧ _ := by simpa using split.symm.trans split'
  exact apart (Protocol.eq_of_isNamed named named')

/-- A group that is no port belongs to a flag of the stock grammar. -/
theorem exists_of_group {group : FlagGroup} (front : group.isPort = false) :
    ∃ flag ∈ stockFlags, flag.condition? = group.part.condition? := by
  have jump : Flag.jump ∈ stockFlags := by simp [stockFlags]
  obtain ⟨part, words, spelled⟩ := group
  cases spelled with
  | @protocol p _ _ hasPorts spells names => exact ⟨.ofProtocol p, Flag.ofProtocol_mem hasPorts, rfl⟩
  | port spells reads => simp [isPort, Part.condition?] at front
  | @value c _ _ valued spells accepted =>
    have listed : ∀ c ∈ Condition.valued, ∃ flag ∈ stockFlags, flag.condition? = some c := by
      simp [Condition.valued, stockFlags, Flag.condition?]
    exact listed c valued
  | jump bare spells => exact ⟨.jump, jump, rfl⟩
  | redirect needs spells literal => exact ⟨.jump, jump, rfl⟩

/-- A group that is no port and no protocol is recognized alone. -/
theorem fit?_group {flag : Flag} {group : FlagGroup} (own : flag.condition? = group.part.condition?)
    (front : group.isPort = false) (other : group.isProtocol = false) {tokens : List Token} {more : List String}
    (shape : Token.texts tokens = group.words ++ more) :
    ∃ fit, flag.fit? tokens = some fit ∧ parts fit.elements = [group.part] ∧ Token.texts fit.rest = more := by
  obtain ⟨part, words, spelled⟩ := group
  cases spelled with
  | protocol => simp [FlagGroup.isProtocol, Part.condition?] at other
  | port => simp [FlagGroup.isPort, Part.condition?] at front
  | @value c _ _ valued spells accepted =>
    obtain ⟨first, rest, rfl, rfl, fromValue⟩ := Token.texts_eq_cons_iff.1 shape
    obtain ⟨value, rest, rfl, rfl, left⟩ := Token.texts_eq_cons_iff.1 fromValue
    rw [fit?_of_valued valued own]
    exact ⟨_, Clause.valueFit?_eq_some_iff.2 ⟨first, value, rest, rfl, spells, accepted, rfl⟩, rfl, left⟩
  | @jump a _ bare spells =>
    obtain rfl := eq_jump_of_condition? own
    obtain ⟨first, rest, rfl, rfl, fromName⟩ := Token.texts_eq_cons_iff.1 shape
    obtain ⟨name, rest, rfl, nameText, left⟩ := Token.texts_eq_cons_iff.1 fromName
    have fits : Flag.jump.fit? (first :: name :: rest) =
        some ⟨[.ofTyped (.action a none) [first.text, name.text]], rest⟩ := by
      simp [fit?, jumpFit?, spells, nameText, find?_action, actionFit?, bare]
    exact ⟨_, fits, rfl, left⟩
  | @redirect a _ option target needs spells literal =>
    obtain rfl := eq_jump_of_condition? own
    obtain ⟨first, rest, rfl, rfl, fromName⟩ := Token.texts_eq_cons_iff.1 shape
    obtain ⟨name, rest, rfl, nameText, fromOption⟩ := Token.texts_eq_cons_iff.1 fromName
    obtain ⟨word, rest, rfl, wordText, fromTarget⟩ := Token.texts_eq_cons_iff.1 fromOption
    obtain ⟨value, rest, rfl, rfl, left⟩ := Token.texts_eq_cons_iff.1 fromTarget
    have fits : Flag.jump.fit? (first :: name :: word :: value :: rest) =
        some ⟨[.ofTyped (.action a (some value.text)) [first.text, name.text, word.text, value.text]], rest⟩ := by
      simp [fit?, jumpFit?, spells, nameText, find?_action, actionFit?, needs, wordText, literal]
    exact ⟨_, fits, rfl, left⟩

/-- Only the flag of the first group fits. -/
theorem condition?_of_fit? {flag : Flag} (member : flag ∈ stockFlags) {group : FlagGroup} (front : group.isPort = false)
    {tokens : List Token} {more : List String} (shape : Token.texts tokens = group.words ++ more) {fit : Fit}
    (fits : flag.fit? tokens = some fit) : flag.condition? = group.part.condition? := by
  obtain ⟨other, isOther, own⟩ := exists_of_group front
  obtain ⟨found, fitsOther⟩ : ∃ found, other.fit? tokens = some found := by
    by_cases isProtocol : group.isProtocol = true
    · obtain ⟨p, selects⟩ := exists_of_isProtocol isProtocol
      obtain ⟨word, name, words, spells, named, hasPorts, -⟩ := isNamed_of_condition? selects
      obtain rfl : other = .ofProtocol p := eq_of_condition? isOther (ofProtocol_mem hasPorts) (own.trans selects)
      rw [words] at shape
      obtain ⟨first, rest, rfl, rfl, fromName⟩ := Token.texts_eq_cons_iff.1 shape
      obtain ⟨second, rest, rfl, rfl, -⟩ := Token.texts_eq_cons_iff.1 fromName
      exact ⟨_, Clause.fit?_ofProtocol hasPorts spells named⟩
    · obtain ⟨found, fitsOther, -⟩ := fit?_group own front (Bool.eq_false_iff.2 isProtocol) shape
      exact ⟨found, fitsOther⟩
  rw [eq_of_fit? member isOther fits fitsOther, own]

end Grammar.Flag

end PacketFilter
