import Mathlib.Data.List.TakeWhile
import PacketFilter.Proofs.Grammar.Typed
import PacketFilter.Proofs.Rule.Editing

/-!
# The words of a complete rule

A rule that is matched completely is a header with flag groups behind it, once the ports of its protocols are taken
out: a port may stand between any two words of the scope of its protocol, also inside another group. Main statement:
`words_of_complete`.
-/

namespace PacketFilter

/-- A group that is no jump is the flag of a condition and a value of it. -/
theorem FlagGroup.pair_of_allWords {groups : List FlagGroup} {flag value : String} {more : List String}
    (shape : flag :: value :: more = FlagGroup.allWords groups) (other : Action.jump.accepts flag = false) :
    ∃ c : Condition, c.spelling.accepts flag = true ∧ c.accepts value = true ∧
      ∃ rest : List FlagGroup, more = FlagGroup.allWords rest := by
  rcases groups with _ | ⟨⟨part, words, spelled⟩, groups⟩
  · simp [FlagGroup.allWords] at shape
  rw [FlagGroup.allWords_cons] at shape
  cases spelled with
  | @protocol p _ _ hasPorts spells names =>
    obtain ⟨rfl, rfl, rfl⟩ : _ ∧ _ ∧ _ := by simpa using shape
    exact ⟨.protocol p, spells, names, groups, rfl⟩
  | @port side p _ _ number spells reads =>
    obtain ⟨rfl, rfl, rfl⟩ : _ ∧ _ ∧ _ := by simpa using shape
    refine ⟨.port side p, by rwa [Condition.spelling_port], ?_, groups, rfl⟩
    rw [Condition.accepts, Part.parse_of_number? reads]
    rfl
  | @value c _ _ valued spells accepted =>
    obtain ⟨rfl, rfl, rfl⟩ : _ ∧ _ ∧ _ := by simpa using shape
    exact ⟨c, spells, accepted, groups, rfl⟩
  | jump bare spells | redirect needs spells literal =>
    obtain ⟨rfl, -⟩ : _ ∧ _ := by simpa using shape
    simp [other] at spells

namespace Grammar

/-- The ports of a protocol taken out of words, one after another, and the words that are left. -/
inductive Without (p : Protocol) : List String → List Part → List String → Prop where
  | done (words : List String) : Without p words [] words
  | take {front pair back rest : List String} {side : Side} {value : String} {ports : List Part}
      (spelled : (Part.condition (.port side p) (some value)).SpelledAs pair) (later : Without p (front ++ back) ports rest) :
      Without p (front ++ pair ++ back) (.condition (.port side p) (some value) :: ports) rest

/-- Words that are flag groups, except that the ports of a protocol stand anywhere up to the next protocol. -/
inductive Groups : List String → List Part → Prop where
  | nil : Groups [] []
  | group {part : Part} {typed words : List String} {parts : List Part} (unbound : part.protocol? = none)
      (spelled : part.SpelledAs typed) (later : Groups words parts) : Groups (typed ++ words) (part :: parts)
  | protocol {p : Protocol} {typed scope rest words : List String} {ports parts : List Part}
      (spelled : (Part.condition (.protocol p) none).SpelledAs typed)
      (inside : ∀ word ∈ scope, Protocol.flag.accepts word = false)
      (ends : ∀ word ∈ words.head?, Protocol.flag.accepts word = true) (taken : Without p scope ports rest)
      (later : Groups (rest ++ words) parts) :
      Groups (typed ++ scope ++ words) (.condition (.protocol p) none :: ports ++ parts)

namespace Flag

theorem without_of_claims {p : Protocol} {sides : List Side} {tokens : List Token} {scan : Scan Recognizer}
    (claims : Claims id (sides.map fun side => portFit? side p) tokens scan) :
    Without p (Token.texts tokens) (parts scan.elements) (Token.texts scan.rest) := by
  generalize recognized : sides.map (fun side => portFit? side p) = options at claims
  induction claims generalizing sides with
  | stop => exact .done _
  | claim earlier fits later ih =>
    obtain ⟨front, back, rfl, rfl, split⟩ := List.map_eq_append_iff.1 recognized
    obtain ⟨side, rest, rfl, rfl, rfl⟩ := List.map_eq_cons_iff.1 split
    obtain ⟨ahead, flag, value, behind, port, rfl, spells, -, number, rfl⟩ := portFit?_eq_some_iff.1 fits
    have later := @ih (front ++ rest) (by simp)
    rw [Token.texts_append] at later
    have taken := later.take (.port spells number)
    simpa [PacketFilter.parts] using taken

theorem spelled_of_jumpFit? {tokens : List Token} {fit : Fit} (fits : jumpFit? tokens = some fit) :
    ∃ a target? typed, (Part.action a target?).SpelledAs typed ∧ parts fit.elements = [.action a target?] ∧
      Token.texts tokens = typed ++ Token.texts fit.rest := by
  obtain ⟨flag, name, a, spells, named, ⟨rest, bare, rfl, rfl⟩ | ⟨option, target, rest, needs, literal, rfl, rfl⟩⟩ :=
    Clause.jumpFit?_cases fits
  · exact ⟨a, none, _, .jump bare spells, rfl, by simp [named]⟩
  · exact ⟨a, some target.text, _, .redirect needs spells literal, rfl, by simp [named]⟩

/-- A flag that fits takes a group from the front; a protocol takes its ports from its scope as well. -/
theorem groups_of_fit? {flag : Flag} (member : flag ∈ stockFlags) {tokens : List Token} {fit : Fit}
    (fits : flag.fit? tokens = some fit) {ps : List Part} (later : Groups (Token.texts fit.rest) ps) :
    Groups (Token.texts tokens) (parts fit.elements ++ ps) := by
  rcases stock_cases member with ⟨p, hasPorts, rfl⟩ | ⟨c, valued, own⟩ | rfl
  · obtain ⟨flag, name, rest, rfl, spells, names, rfl⟩ := (Clause.fit?_ofProtocol_eq_some_iff hasPorts).1 fits
    have taken := without_of_claims (claims_greedy id ([.source, .destination].map fun side => portFit? side p)
      (rest.takeWhile fun token => !Protocol.flag.accepts token.text))
    rw [Clause.texts_takeWhile fun word => !Protocol.flag.accepts word] at taken
    rw [Token.texts_append, Clause.texts_dropWhile fun word => !Protocol.flag.accepts word] at later
    have group := Groups.protocol (.protocol hasPorts spells names) ?_ ?_ taken later
    · simpa [parts] using group
    · intro word member
      have inside := List.mem_takeWhile_imp member
      simpa using inside
    · intro word first
      have stopped := List.head?_dropWhile_not (fun word => !Protocol.flag.accepts word) (Token.texts rest)
      rw [Option.mem_def.1 first] at stopped
      simpa using stopped
  · have unbound : ∀ c ∈ Condition.valued, ∀ value?, (Part.condition c value?).protocol? = none := by
      simp [Condition.valued, Part.protocol?]
    rw [fit?_of_valued valued own] at fits
    obtain ⟨flag, value, rest, rfl, spells, accepted, rfl⟩ := Clause.valueFit?_eq_some_iff.1 fits
    exact .group (unbound c valued _) (.value valued spells accepted) later
  · rw [fit?] at fits
    obtain ⟨a, target?, typed, spelled, meaning, split⟩ := spelled_of_jumpFit? fits
    rw [meaning, split]
    exact .group rfl spelled later

end Flag

/-- Flags that leave nothing take groups from the front, one after another. -/
theorem groups_of_claims {flags : List Flag} (stock : flags.Sublist stockFlags) {tokens : List Token} {scan : Scan Flag}
    (claims : Claims Flag.fit? flags tokens scan) (done : scan.rest = []) :
    Groups (Token.texts tokens) (parts scan.elements) := by
  induction claims with
  | stop =>
    obtain rfl := done
    exact .nil
  | claim earlier fits later ih =>
    have fewer := ih (List.Sublist.trans (by simp) stock) done
    simpa [parts] using Flag.groups_of_fit? (stock.subset (by simp)) fits fewer

/-- A complete match is a header with flag groups behind it, from which the ports of protocols are taken out. -/
theorem words_of_complete {tokens : List Token} (complete : (stock.parse .unknown tokens).complete = true) :
    ∃ table command chain front words ps, IsHeader table command chain front ∧ Token.texts tokens = front ++ words ∧
      Groups words ps ∧ parts (stock.parse .unknown tokens).elements = headerParts table command chain ++ ps := by
  have whole := covered_of_complete complete
  obtain ⟨-, result⟩ := parse_stock .unknown tokens
  rw [if_pos whole] at result
  obtain ⟨table, command, chain, front, typed, split, meaning⟩ := isHeader_of_whole whole
  have groups := groups_of_claims (List.Sublist.refl _) (claims_greedy Flag.fit? stockFlags _) (result.2.1 complete)
  refine ⟨table, command, chain, front, _, _, typed, split, groups, ?_⟩
  rw [result.1, ← meaning]
  simp [parts, Flag.scan]

theorem words_of_nested_port :
    let tokens := Token.scan "iptables -t FILTER -A INPUT -p tcp -s --dport 22 10.0.0.1"
    (stock.parse .unknown tokens).complete = true ∧
      ∃ table command chain front words ps, IsHeader table command chain front ∧ Token.texts tokens = front ++ words ∧
        Groups words ps ∧ parts (stock.parse .unknown tokens).elements = headerParts table command chain ++ ps := by
  intro tokens
  have complete : (stock.parse .unknown tokens).complete = true := by decide +kernel
  exact ⟨complete, words_of_complete complete⟩

/-- The target of `-s` is left to it once the port in front of it is taken out. -/
theorem complete_nested_port :
    let tokens := Token.scan "iptables -t FILTER -A INPUT -p tcp -s --dport 22 10.0.0.1"
    (stock.parse .unknown tokens).complete = true ∧
      ¬ ∃ table command chain front, ∃ groups : List FlagGroup, IsHeader table command chain front ∧
        Token.texts tokens = front ++ FlagGroup.allWords groups := by
  intro tokens
  have texts : Token.texts tokens =
      ["iptables", "-t", "FILTER", "-A", "INPUT", "-p", "tcp", "-s", "--dport", "22", "10.0.0.1"] := by
    decide +kernel
  refine ⟨by decide +kernel, ?_⟩
  rintro ⟨table, command, chain, front, groups, ⟨-, flag, name, word, rfl, -⟩, shape⟩
  obtain ⟨-, -, -, -, behind⟩ : _ ∧ _ ∧ _ ∧ _ ∧ _ := by simpa [texts] using shape
  -- Groups would go on with `-s --dport` behind the protocol.
  obtain ⟨-, -, -, groups, behind⟩ := FlagGroup.pair_of_allWords behind (by decide)
  obtain ⟨c, spells, accepted, -⟩ := FlagGroup.pair_of_allWords behind (by decide)
  revert spells accepted
  rcases c with (_ | _ | _) | ⟨_ | _, _ | _ | _⟩ | (_ | _) | (_ | _) | _ <;> decide

end Grammar

end PacketFilter
