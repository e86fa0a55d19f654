import Mathlib.Data.List.TakeWhile
import PacketFilter.Proofs.Grammar.FlagGroup

/-!
# More tokens

Tokens behind others can be taken for the value of a flag in front of them, and change what a flag in front of them is
taken for. What is recognized then is never less: a match of more tokens is behind a match of fewer only by elements
that its rest pays for. Main statements: `ports_append`, `Trails.step`, one flag, and `parse?_append`, the whole.
-/

namespace PacketFilter.Grammar

/-! ## Ports -/

/-- A token that spells the flag of a port. -/
def IsPortFlag (token : Token) : Prop := ∃ side : Side, side.portFlag.accepts token.text = true

theorem IsPortFlag.protocol_accepts {token : Token} (isPort : IsPortFlag token) :
    Protocol.flag.accepts token.text = false := by
  obtain ⟨side, spells⟩ := isPort
  rw [Bool.eq_false_iff]
  intro accepts
  have same := FlagGroup.eq_of_accepts (by cases side <;> decide) (by decide) spells accepts
  revert same
  cases side <;> decide

namespace Flag

theorem portFit?_append {side : Side} {p : Protocol} {tokens : List Token} {fit : Fit}
    (fits : portFit? side p tokens = some fit) (more : List Token) :
    portFit? side p (tokens ++ more) = some ⟨fit.elements, fit.rest ++ more⟩ := by
  obtain ⟨front, flag, value, back, port, rfl, spells, earlier, number, rfl⟩ := portFit?_eq_some_iff.1 fits
  exact portFit?_eq_some_iff.2 ⟨front, flag, value, back ++ more, port, by simp, spells, earlier, number, by simp⟩

/-- Of the ports of two sides one stands behind the other. -/
theorem ports_apart {a b : Side} (differ : a ≠ b) {front back front' back' : List Token} {flag value flag' value' : Token}
    (same : front ++ flag :: value :: back = front' ++ flag' :: value' :: back')
    (spells : a.portFlag.accepts flag.text = true) (spells' : b.portFlag.accepts flag'.text = true)
    (number : (Port.number? value.text).isSome) (number' : (Port.number? value'.text).isSome) :
    (∃ middle, front' = front ++ flag :: value :: middle ∧ back = middle ++ flag' :: value' :: back') ∨
      ∃ middle, front = front' ++ flag' :: value' :: middle ∧ back' = middle ++ flag :: value :: back := by
  have behind {a b : Side} (differ : a ≠ b) {ahead back back' : List Token} {flag value flag' value' : Token}
      (same : flag :: value :: back = ahead ++ flag' :: value' :: back') (spells : a.portFlag.accepts flag.text = true)
      (spells' : b.portFlag.accepts flag'.text = true) (number : (Port.number? value.text).isSome) :
      ∃ middle, ahead = flag :: value :: middle ∧ back = middle ++ flag' :: value' :: back' := by
    rcases ahead with _ | ⟨_, _ | ⟨_, middle⟩⟩
    · obtain ⟨rfl, -⟩ : flag = flag' ∧ _ := by simpa using same
      have spelling := FlagGroup.eq_of_accepts (by cases a <;> decide) (by cases b <;> decide) spells spells'
      exact absurd (Side.eq_of_portFlag_accepts (by rw [spelling, Spelling.accepts_keyword])) differ
    · obtain ⟨-, rfl, -⟩ : _ ∧ value = flag' ∧ _ := by simpa using same
      simp [b.number?_of_accepts spells'] at number
    · obtain ⟨rfl, rfl, rfl⟩ : _ ∧ _ ∧ _ := by simpa using same
      exact ⟨middle, rfl, rfl⟩
  rcases List.append_eq_append_iff.1 same with ⟨ahead, rfl, split⟩ | ⟨ahead, rfl, split⟩
  · obtain ⟨middle, rfl, rfl⟩ := behind differ split spells spells' number
    exact .inl ⟨middle, rfl, rfl⟩
  · obtain ⟨middle, rfl, rfl⟩ := behind differ.symm split spells' spells number'
    exact .inr ⟨middle, rfl, rfl⟩

theorem commutes_portFit? {p : Protocol} {a b : Side} (differ : a ≠ b) :
    Commutes id (portFit? a p) (portFit? b p) := by
  intro tokens first second fits fits'
  obtain ⟨front, flag, value, back, port, rfl, spells, earlier, number, rfl⟩ := portFit?_eq_some_iff.1 fits
  obtain ⟨front', flag', value', back', port', same, spells', earlier', number', rfl⟩ := portFit?_eq_some_iff.1 fits'
  rcases ports_apart differ same spells spells' (by simp [number]) (by simp [number']) with
    ⟨middle, rfl, rfl⟩ | ⟨middle, rfl, rfl⟩
  · refine ⟨front ++ middle ++ back', portFit?_eq_some_iff.2 ?_, portFit?_eq_some_iff.2 ?_⟩
    · exact ⟨front ++ middle, flag', value', back', port', by simp, spells', fun token member => earlier' token (by grind),
        number', by simp⟩
    · exact ⟨front, flag, value, middle ++ back', port, by simp, spells, earlier, number, by simp⟩
  · refine ⟨front' ++ middle ++ back, portFit?_eq_some_iff.2 ?_, portFit?_eq_some_iff.2 ?_⟩
    · exact ⟨front', flag', value', middle ++ back, port', by simp, spells', earlier', number', by simp⟩
    · exact ⟨front' ++ middle, flag, value, back, port, by simp, spells, fun token member => earlier token (by grind),
        number, by simp⟩

/-- Ports that do not fit what stands in front take flags from its end at most, and they are as many as these. -/
theorem ends_of_claims {p : Protocol} {options : List Recognizer} {ahead behind : List Token} {scan : Scan Recognizer}
    (claims : Claims id options (ahead ++ behind) scan) (ports : ∀ option ∈ options, ∃ side, option = portFit? side p)
    (misses : ∀ option ∈ options, option ahead = none) :
    ∃ kept loose later, ahead = kept ++ loose ∧ scan.rest = kept ++ later ∧ (∀ token ∈ loose, IsPortFlag token) ∧
      loose.length ≤ scan.elements.length := by
  generalize whole : ahead ++ behind = tokens at claims
  induction claims generalizing ahead behind with
  | stop => exact ⟨ahead, [], behind, by simp, whole.symm, by simp, by simp⟩
  | @claim before after option tokens fit scan earlier fits later ih =>
    have fewer : (before ++ after).Sublist (before ++ option :: after) := by simp
    have others : ∀ other ∈ before ++ after, ∃ side, other = portFit? side p := fun other member =>
      ports other (fewer.subset member)
    have still : ∀ other ∈ before ++ after, other ahead = none := fun other member => misses other (fewer.subset member)
    obtain ⟨side, rfl⟩ := ports option (by simp)
    obtain ⟨front, flag, value, back, port, rfl, spells, first, number, rfl⟩ := portFit?_eq_some_iff.1 fits
    rcases List.append_eq_append_iff.1 whole with ⟨gap, rfl, rfl⟩ | ⟨gap, rfl, split⟩
    · obtain ⟨kept, loose, left, rfl, rest, all, count⟩ := @ih ahead (gap ++ back) others still (by simp)
      exact ⟨kept, loose, left, rfl, rest, all, by simp; omega⟩
    · rcases gap with _ | ⟨_, _ | ⟨_, gap⟩⟩
      · rw [List.append_nil] at still ⊢
        obtain ⟨kept, loose, left, rfl, rest, all, count⟩ := @ih front back others still rfl
        exact ⟨kept, loose, left, rfl, rest, all, by simp; omega⟩
      · -- The flag stands at the end, with its number behind it.
        obtain ⟨rfl, -⟩ : flag = _ ∧ _ := by simpa using split
        have shorter : ∀ other ∈ before ++ after, other front = none := by
          intro other member
          obtain ⟨otherSide, rfl⟩ := others other member
          rw [Option.eq_none_iff_forall_ne_some]
          intro found fits
          have missed := still _ member
          rw [portFit?_append fits] at missed
          cases missed
        obtain ⟨kept, loose, left, rfl, rest, all, count⟩ := @ih front back others shorter rfl
        refine ⟨kept, loose ++ [flag], left, by simp, rest, ?_, by simp; omega⟩
        exact List.forall_mem_append.2 ⟨all, by simpa using ⟨side, spells⟩⟩
      · obtain ⟨rfl, rfl, rfl⟩ : flag = _ ∧ value = _ ∧ _ := by simpa using split
        have inside := misses (portFit? side p) (by simp)
        rw [portFit?_eq_some_iff.2 ⟨front, flag, value, gap, port, rfl, spells, first, number, rfl⟩] at inside
        cases inside

/-- The ports among more tokens: the rest loses a flag at its end only for one port more. -/
theorem ports_append (p : Protocol) (tokens more : List Token) :
    let options := [portFit? .source p, portFit? .destination p]
    let scan := greedy id options tokens
    let longer := greedy id options (tokens ++ more)
    ∃ kept loose later, scan.rest = kept ++ loose ∧ longer.rest = kept ++ later ∧ (∀ token ∈ loose, IsPortFlag token) ∧
      scan.elements.length + loose.length ≤ longer.elements.length := by
  intro options scan longer
  have claims : Claims id options tokens scan := claims_greedy id options tokens
  have sides : ∀ option ∈ options, ∃ side, option = portFit? side p := by
    intro option member
    rcases List.mem_pair.1 member with rfl | rfl
    · exact ⟨.source, rfl⟩
    · exact ⟨.destination, rfl⟩
  have commutes : options.Pairwise (Commutes id) := by
    simpa [options] using @commutes_portFit? p .source .destination (by decide)
  have grows : ∀ option ∈ options, ∀ tokens fit, id option tokens = some fit →
      id option (tokens ++ more) = some ⟨fit.elements, fit.rest ++ more⟩ := by
    intro option member tokens fit fits
    obtain ⟨side, rfl⟩ := sides option member
    exact portFit?_append fits more
  obtain ⟨rest, perm⟩ := claims.greedy_append commutes grows
  obtain ⟨kept, loose, later, split, left, all, count⟩ := ends_of_claims (claims_greedy id scan.unclaimed (scan.rest ++ more))
    (fun option member => sides option (claims.unclaimed_sublist.subset member)) claims.misses
  refine ⟨kept, loose, later, split, rest.trans left, all, ?_⟩
  rw [perm.length_eq, List.length_append]
  omega

/-! ## Other flags -/

/-- A flag without options takes tokens from the front, whatever stands behind them. -/
theorem front_of_fit? {flag : Flag} (single : (∃ c ∈ Condition.valued, flag.condition? = some c) ∨ flag = .jump)
    {tokens : List Token} {fit : Fit} (fits : flag.fit? tokens = some fit) :
    fit.elements.length = 1 ∧ ∃ first typed, tokens = first :: typed ++ fit.rest ∧
      ∀ other, flag.fit? (first :: typed ++ other) = some ⟨fit.elements, other⟩ := by
  rcases single with ⟨c, valued, own⟩ | rfl
  · rw [fit?_of_valued valued own] at fits ⊢
    obtain ⟨word, value, rest, rfl, spells, accepted, rfl⟩ := Clause.valueFit?_eq_some_iff.1 fits
    exact ⟨rfl, word, [value], rfl, fun other => Clause.valueFit?_eq_some_iff.2
      ⟨word, value, other, rfl, spells, accepted, rfl⟩⟩
  · rw [fit?] at fits ⊢
    obtain ⟨word, name, a, spells, named, ⟨rest, bare, rfl, rfl⟩ | ⟨option, target, rest, needs, literal, rfl, rfl⟩⟩ :=
      Clause.jumpFit?_cases fits
    · refine ⟨rfl, word, [name], rfl, fun other => ?_⟩
      simp [jumpFit?, spells, ← named, find?_action, actionFit?, bare]
    · refine ⟨rfl, word, [name, option, target], rfl, fun other => ?_⟩
      simp [jumpFit?, spells, ← named, find?_action, actionFit?, needs, literal]

end Flag

/-! ## Flags in any order -/

/-- The tokens of a match of fewer tokens against those of a match of more: they go apart behind common ones, where the
    former have flags of ports only, no more of them than `debt`, and no protocol in front of them. -/
def Trails (debt : Nat) (fewer more : List Token) : Prop :=
  ∃ kept loose later, fewer = kept ++ loose ∧ more = kept ++ later ∧ loose.length ≤ debt ∧
    (∀ token ∈ loose, IsPortFlag token) ∧ (loose = [] ∨ ∀ token ∈ kept, Protocol.flag.accepts token.text = false)

theorem trails_append (fewer more : List Token) : Trails 0 fewer (fewer ++ more) :=
  ⟨fewer, [], more, by simp, rfl, by simp, by simp, .inl rfl⟩

/-- What stands in front of the first element without a property, in a list that goes on. -/
theorem span_append {α : Type} (p : α → Bool) (xs ys : List α) :
    ((∀ x ∈ xs, p x = true) ∧ xs.takeWhile p = xs ∧ xs.dropWhile p = [] ∧
        (xs ++ ys).takeWhile p = xs ++ ys.takeWhile p ∧ (xs ++ ys).dropWhile p = ys.dropWhile p) ∨
      (xs ++ ys).takeWhile p = xs.takeWhile p ∧ (xs ++ ys).dropWhile p = xs.dropWhile p ++ ys := by
  by_cases all : ∀ x ∈ xs, p x = true
  · exact .inl ⟨all, List.takeWhile_eq_self_iff.2 all, List.dropWhile_eq_nil_iff.2 all, List.takeWhile_append_of_pos all,
      List.dropWhile_append_of_pos all⟩
  · have stops : xs.dropWhile p ≠ [] := mt List.dropWhile_eq_nil_iff.1 all
    have shorter : (xs.takeWhile p).length ≠ xs.length := fun same =>
      all (List.takeWhile_eq_self_iff.1 ((List.takeWhile_prefix p).eq_of_length same))
    exact .inr ⟨by rw [List.takeWhile_append, if_neg shorter], by simp [List.dropWhile_append, stops]⟩

/-- A protocol among more tokens has more ports, as many as its rest loses flags. -/
theorem trails_of_protocol {p : Protocol} (hasPorts : p.hasPorts = true) {tokens : List Token} {fit : Fit}
    (fits : (Flag.ofProtocol p).fit? tokens = some fit) (more : List Token) :
    ∃ longer owed, (Flag.ofProtocol p).fit? (tokens ++ more) = some longer ∧
      fit.elements.length + owed ≤ longer.elements.length ∧ Trails owed fit.rest longer.rest := by
  obtain ⟨flag, name, rest, rfl, spells, names, rfl⟩ := (Clause.fit?_ofProtocol_eq_some_iff hasPorts).1 fits
  rw [List.cons_append, List.cons_append, Clause.fit?_ofProtocol hasPorts spells names]
  rcases span_append (fun token => !Protocol.flag.accepts token.text) rest more with
    ⟨inside, scope, behind, longerScope, longerBehind⟩ | ⟨sameScope, longerBehind⟩
  · -- No other protocol ends the scope, so it goes on.
    obtain ⟨kept, loose, later, split, left, all, count⟩ := Flag.ports_append p rest
      (more.takeWhile fun token => !Protocol.flag.accepts token.text)
    obtain ⟨-, -, -, -, fewer⟩ := Flag.claims_ports (by decide)
      (claims_greedy id ([.source, .destination].map fun side => Flag.portFit? side p) rest)
    have quiet : ∀ token ∈ kept, Protocol.flag.accepts token.text = false := by
      intro token member
      have isOwn : token ∈ rest := fewer.subset (split ▸ List.mem_append_left loose member)
      simpa using inside token isOwn
    simp only [scope, behind, longerScope, longerBehind]
    refine ⟨_, loose.length, rfl, by simpa [Nat.add_right_comm] using count, kept, loose,
      later ++ more.dropWhile fun token => !Protocol.flag.accepts token.text, ?_, ?_, Nat.le_refl _, all, .inr quiet⟩
    · rw [List.append_nil, split]
    · rw [left, List.append_assoc]
  · simp only [sameScope, longerBehind]
    refine ⟨_, 0, rfl, Nat.le_refl _, ?_⟩
    simp only [← List.append_assoc]
    exact trails_append _ more

/-- A flag that fits the fewer tokens fits the more, unless what it takes reaches behind the common ones; then nothing
    but flags of ports is left. -/
theorem Trails.step {debt : Nat} {fewer more : List Token} (trails : Trails debt fewer more) {flag : Flag}
    (member : flag ∈ stockFlags) {fit : Fit} (fits : flag.fit? fewer = some fit) :
    (∃ longer owed, flag.fit? more = some longer ∧ fit.elements.length + owed ≤ longer.elements.length + debt ∧
        Trails owed fit.rest longer.rest) ∨
      fit.elements.length ≤ debt ∧ ∀ token ∈ fit.rest, IsPortFlag token := by
  obtain ⟨kept, loose, later, rfl, rfl, short, all, quiet⟩ := trails
  rcases Flag.stock_cases member with ⟨p, hasPorts, rfl⟩ | single
  · -- A protocol in front is common to both, so the fewer tokens have no loose ones.
    obtain rfl : loose = [] := by
      refine quiet.resolve_right fun quiet => ?_
      obtain ⟨word, name, rest, split, spells, -⟩ := (Clause.fit?_ofProtocol_eq_some_iff hasPorts).1 fits
      have first : word ∈ kept ++ loose := by simp [split]
      rcases List.mem_append.1 first with inKept | inLoose
      · simp [quiet word inKept] at spells
      · simp [(all word inLoose).protocol_accepts] at spells
    rw [List.append_nil] at fits
    obtain ⟨longer, owed, fitsMore, count, behind⟩ := trails_of_protocol hasPorts fits later
    exact .inl ⟨longer, owed, fitsMore, by omega, behind⟩
  · obtain ⟨one, first, typed, split, fitsOther⟩ := Flag.front_of_fit? single fits
    have within (left : List Token) (ahead : kept = first :: typed ++ left) (rest : fit.rest = left ++ loose) :
        ∃ longer owed, flag.fit? (kept ++ later) = some longer ∧
          fit.elements.length + owed ≤ longer.elements.length + debt ∧ Trails owed fit.rest longer.rest := by
      rw [ahead, List.append_assoc]
      refine ⟨_, debt, fitsOther _, Nat.le_refl _, left, loose, later, rest, rfl, short, all, ?_⟩
      exact quiet.imp_right fun quiet token member => quiet token (by simp [ahead, member])
    rcases List.append_eq_append_iff.1 split with ⟨gap, reaches, rest⟩ | ⟨left, ahead, rest⟩
    · rcases gap with _ | ⟨token, gap⟩
      · exact .inl (within [] (by simpa using reaches.symm) (by simpa using rest.symm))
      · subst rest
        refine .inr ⟨?_, fun token member => all token (by simp [member])⟩
        simp only [List.cons_append, List.length_cons] at short
        omega
    · exact .inl (within left ahead rest)

/-- No flag fits flags of ports. -/
theorem scan_of_portFlags {flags : List Flag} (stock : flags.Sublist stockFlags) {tokens : List Token}
    (all : ∀ token ∈ tokens, IsPortFlag token) : Flag.scan flags tokens = ⟨[], tokens, flags⟩ := by
  cases tokens with
  | nil => exact Flag.scan_nil flags
  | cons token tokens =>
    obtain ⟨side, spells⟩ := all token (by simp)
    exact Clause.scan_of_portFlag stock spells rfl

/-- A match of more tokens is behind a match of fewer by no more elements than are owed. -/
theorem length_le_of_claims {flags : List Flag} {fewer : List Token} {scan : Scan Flag}
    (claims : Claims Flag.fit? flags fewer scan) (stock : flags.Sublist stockFlags) {debt : Nat} {more : List Token}
    (trails : Trails debt fewer more) : scan.elements.length ≤ (Flag.scan flags more).elements.length + debt := by
  induction claims generalizing debt more with
  | stop => simp
  | @claim before after flag fewer fit scan earlier fits later ih =>
    have member : flag ∈ stockFlags := stock.subset (by simp)
    have others : (before ++ after).Sublist stockFlags := List.Sublist.trans (by simp) stock
    rcases trails.step member fits with ⟨longer, owed, fitsMore, count, behind⟩ | ⟨count, loose⟩
    · have alone : ∀ other ∈ before, other.fit? more = none := by
        intro other inside
        rw [Option.eq_none_iff_forall_ne_some]
        intro found fitsOther
        obtain rfl := Flag.eq_of_fit? member (stock.subset (by simp [inside])) fitsMore fitsOther
        have apart := Flag.nodup_stockFlags.sublist stock
        exact (List.nodup_middle.1 apart).notMem (by simp [inside])
      have length := ih others behind
      rw [Flag.scan, greedy_of_fits alone fitsMore]
      simp only [List.length_append, Flag.scan] at length ⊢
      omega
    · have nothing : scan.elements = [] := by
        have empty := scan_of_portFlags others loose
        rw [claims_iff.1 later, ← Flag.scan, empty]
      simp [nothing]
      omega

/-! ## The whole rule -/

theorem Component.fit?_append {component : Component} (fixed : component.isFlags = false) {context : Context}
    {tokens : List Token} {found : Match} (fits : component.fit? context tokens = some found) (more : List Token) :
    component.fit? context (tokens ++ more) = some { found with rest := found.rest ++ more } := by
  obtain ⟨part, typed, rest, rfl, offers, spelled, rfl⟩ := fit?_sound fixed fits
  rw [List.append_assoc]
  exact fit?_typed offers spelled (rest ++ more)

/-- A walk over more tokens goes at least as far, and a whole walk leaves the tokens that were added. -/
theorem walk_append_tokens {components : List Component} (fixed : ∀ component ∈ components, component.isFlags = false)
    (context : Context) (tokens more : List Token) :
    let found := walk components context tokens
    let longer := walk components context (tokens ++ more)
    found.covered ≤ longer.covered ∧
      (found.covered = components.length → longer = { found with rest := found.rest ++ more }) := by
  induction components generalizing context tokens with
  | nil => exact ⟨Nat.le_refl 0, fun _ => rfl⟩
  | cons component components ih =>
    cases fits : component.fit? context tokens with
    | none => simp [walk, fits]
    | some found =>
      obtain ⟨further, same⟩ := ih (fun other member => fixed other (by simp [member])) found.context found.rest
      simp only [walk, fits, Component.fit?_append (fixed component (by simp)) fits more, List.length_cons]
      refine ⟨by omega, fun whole => ?_⟩
      rw [same (by omega)]

/-- What is recognized in tokens is no less when more tokens stand behind them. -/
theorem parse?_append (context : Context) (tokens more : List Token) :
    ∃ fewer longer, stock.parse? true context tokens = some fewer ∧
      stock.parse? true context (tokens ++ more) = some longer ∧ fewer.elements.length ≤ longer.elements.length := by
  refine ⟨stock.parse context tokens, stock.parse context (tokens ++ more), rfl, rfl, ?_⟩
  obtain ⟨-, result⟩ := parse_stock context tokens
  obtain ⟨-, resultMore⟩ := parse_stock context (tokens ++ more)
  obtain ⟨further, same⟩ := walk_append_tokens header_fixed context tokens more
  by_cases whole : (walk header context tokens).covered = 4
  · rw [same whole, if_pos whole] at resultMore
    rw [if_pos whole] at result
    have flags := length_le_of_claims (claims_greedy Flag.fit? stockFlags (walk header context tokens).rest)
      (List.Sublist.refl _) (trails_append _ more)
    rw [result.1, resultMore.1, List.length_append, List.length_append]
    simp only [Flag.scan] at flags ⊢
    omega
  · rw [if_neg whole] at result
    have counted := (walk_leads header_fixed context tokens).2.1
    have countedMore := (walk_leads header_fixed context (tokens ++ more)).2.1
    have longer : (walk header context (tokens ++ more)).elements.length ≤
        (stock.parse context (tokens ++ more)).elements.length := by
      split at resultMore <;> simp [resultMore.1]
    rw [result.1]
    omega

end PacketFilter.Grammar
