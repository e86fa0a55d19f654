import Mathlib.Data.List.Flatten
import PacketFilter.Proofs.Grammar.Steps
import PacketFilter.Proofs.Grammar.Suggestions
import PacketFilter.Proofs.Rule.Binding
import PacketFilter.Proofs.Rule.Context

/-!
# Options that are left

A match claims options by their place: an option that is not claimed is left, and a protocol that is claimed leaves
those of its own options that the match in its scope does not claim. Proposals go by the meaning of the elements
instead, so they miss an option that is left if another one of the same meaning was claimed. Main statements:
`exists_leaves` and `Leaves.unique`, what a match leaves, `Leaves.map_proposals`, what is proposed in its place, and
`Component.proposals?_flags`.
-/

namespace PacketFilter.Grammar

/-- The first option that fits stands in one place. -/
theorem eq_of_first {α : Type} {fit? : α → Recognizer} {tokens : List Token} {before before' after after' : List α}
    {option option' : α} (split : before ++ option :: after = before' ++ option' :: after')
    (earlier : ∀ other ∈ before, fit? other tokens = none) (fits : fit? option tokens ≠ none)
    (earlier' : ∀ other ∈ before', fit? other tokens = none) (fits' : fit? option' tokens ≠ none) :
    before = before' ∧ option = option' ∧ after = after' := by
  induction before generalizing before' with
  | nil =>
    cases before' with
    | nil => simpa using split
    | cons first before' =>
      obtain ⟨rfl, -⟩ := List.cons.inj split
      exact absurd (earlier' _ (by simp)) fits
  | cons first before ih =>
    cases before' with
    | nil =>
      obtain ⟨rfl, -⟩ := List.cons.inj split
      exact absurd (earlier _ (by simp)) fits'
    | cons first' before' =>
      obtain ⟨rfl, rest⟩ := List.cons.inj split
      obtain ⟨rfl, rfl, rfl⟩ := ih rest (fun other member => earlier other (by simp [member]))
        fun other member => earlier' other (by simp [member])
      exact ⟨rfl, rfl, rfl⟩

/-- Lists that are put together from fewer elements are the same only if each one is. -/
theorem eq_of_flatMap_eq {α β : Type} {f g : α → List β} {xs : List α} (fewer : ∀ x ∈ xs, (f x).Sublist (g x))
    (same : xs.flatMap f = xs.flatMap g) : ∀ x ∈ xs, f x = g x := by
  induction xs with
  | nil => simp
  | cons x xs ih =>
    obtain ⟨own, others⟩ := List.forall_mem_cons.1 fewer
    rw [List.flatMap_cons, List.flatMap_cons] at same
    have length := congrArg List.length same
    rw [List.length_append, List.length_append] at length
    have shorter := own.length_le
    have shorterRest := (List.Sublist.flatMap_right xs others).length_le
    have first : f x = g x := own.eq_of_length (by omega)
    rw [first] at same
    exact List.forall_mem_cons.2 ⟨first, ih others (List.append_cancel_left same)⟩

namespace Flag

/-- A flag that has no options. -/
def IsPlain (flag : Flag) : Prop := ∀ p nested, flag ≠ .protocol p nested

theorem protocol_or_isPlain (flag : Flag) : (∃ p nested, flag = .protocol p nested) ∨ flag.IsPlain := by
  cases flag <;> simp [IsPlain]

/-- What a match leaves in the place of each option: the option itself if it is not claimed, and of a protocol that is
    claimed those of its options that are left by the match in its scope. -/
inductive Leaves : List Flag → List Token → List (List Flag) → Prop where
  /-- No option fits, so each one is left. -/
  | stop {options : List Flag} {tokens : List Token} (misses : ∀ option ∈ options, option.fit? tokens = none) :
      Leaves options tokens (options.map fun option => [option])
  /-- The first option that fits has no options: nothing is left in its place. -/
  | claim {before after : List Flag} {option : Flag} {tokens : List Token} {fit : Fit} {front back : List (List Flag)}
      (plain : option.IsPlain) (earlier : ∀ other ∈ before, other.fit? tokens = none)
      (fits : option.fit? tokens = some fit) (aligned : front.length = before.length)
      (later : Leaves (before ++ after) fit.rest (front ++ back)) :
      Leaves (before ++ option :: after) tokens (front ++ [] :: back)
  /-- The first option that fits is a protocol. Its scope ends at the next token that selects one. -/
  | select {before after nested : List Flag} {p : Protocol} {flag name : Token} {rest : List Token} {fit : Fit}
      {inner front back : List (List Flag)} (earlier : ∀ other ∈ before, other.fit? (flag :: name :: rest) = none)
      (fits : (protocol p nested).fit? (flag :: name :: rest) = some fit)
      (scope : Leaves nested (rest.takeWhile fun token => !Protocol.flag.accepts token.text) inner)
      (aligned : front.length = before.length) (later : Leaves (before ++ after) fit.rest (front ++ back)) :
      Leaves (before ++ .protocol p nested :: after) (flag :: name :: rest) (front ++ inner.flatten :: back)

section

variable {options before after : List Flag} {option : Flag} {tokens : List Token} {fit : Fit}
  {ledger other : List (List Flag)}

theorem Leaves.length_eq (leaves : Leaves options tokens ledger) : ledger.length = options.length := by
  induction leaves with
  | stop => simp
  | claim _ _ _ aligned _ ih => simp at ih ⊢; omega
  | select _ _ _ aligned _ _ ih => simp at ih ⊢; omega

theorem Leaves.exists_split (leaves : Leaves (before ++ after) tokens ledger) :
    ∃ front back, ledger = front ++ back ∧ front.length = before.length := by
  have length := leaves.length_eq
  rw [List.length_append] at length
  exact ⟨ledger.take before.length, ledger.drop before.length, (List.take_append_drop _ _).symm, by simp; omega⟩

/-- A match leaves something in the place of each option, if the matches in the scopes of protocols do. -/
theorem exists_leaves_of_nested
    (nested : ∀ p own, .protocol p own ∈ options → ∀ tokens, ∃ ledger, Leaves own tokens ledger)
    (tokens : List Token) : ∃ ledger, Leaves options tokens ledger := by
  have claims := claims_greedy fit? options tokens
  generalize greedy fit? options tokens = scan at claims
  induction claims with
  | stop misses => exact ⟨_, .stop misses⟩
  | @claim before after option tokens fit scan earlier fits _ ih =>
    have fewer : (before ++ after).Sublist (before ++ option :: after) := by simp
    obtain ⟨ledger, later⟩ := ih fun p own member => nested p own (fewer.subset member)
    obtain ⟨front, back, rfl, aligned⟩ := later.exists_split
    rcases option.protocol_or_isPlain with ⟨p, own, rfl⟩ | plain
    · obtain ⟨flag, name, rest, rfl, -⟩ := fit?_protocol_eq_some_iff.1 fits
      obtain ⟨inner, scope⟩ := nested p own (by simp) (rest.takeWhile fun token => !Protocol.flag.accepts token.text)
      exact ⟨_, .select earlier fits scope aligned later⟩
    · exact ⟨_, .claim plain earlier fits aligned later⟩

/-- Every match leaves something in the place of each option. -/
theorem exists_leaves (options : List Flag) (tokens : List Token) : ∃ ledger, Leaves options tokens ledger := by
  have each (flag : Flag) : ∀ p own, flag = .protocol p own → ∀ tokens, ∃ ledger, Leaves own tokens ledger := by
    induction flag using Flag.induction with
    | protocol p options ih =>
      rintro _ _ ⟨⟩
      exact exists_leaves_of_nested fun p own member => ih _ member p own rfl
    | _ => simp
  exact exists_leaves_of_nested (fun p own _ => each _ p own rfl) tokens

/-- What is left where an option is the first one that fits. -/
theorem Leaves.of_fits (leaves : Leaves options tokens ledger) (split : options = before ++ option :: after)
    (earlier : ∀ other ∈ before, other.fit? tokens = none) (fits : option.fit? tokens = some fit) :
    ∃ front own back, ledger = front ++ own :: back ∧ front.length = before.length ∧
      Leaves (before ++ after) fit.rest (front ++ back) ∧
      (option.IsPlain ∧ own = [] ∨
        ∃ p nested flag name rest inner, option = .protocol p nested ∧ tokens = flag :: name :: rest ∧
          own = inner.flatten ∧ Leaves nested (rest.takeWhile fun token => !Protocol.flag.accepts token.text) inner) := by
  have isFit : option.fit? tokens ≠ none := by simp [fits]
  cases leaves with
  | stop misses => exact absurd (misses option (by simp [split])) isFit
  | @claim _ _ _ _ fit' front back plain earlier' fits' aligned later =>
    obtain ⟨rfl, rfl, rfl⟩ := eq_of_first split earlier' (by simp [fits']) earlier isFit
    obtain rfl : fit = fit' := Option.some.inj (fits.symm.trans fits')
    exact ⟨front, [], back, rfl, aligned, later, .inl ⟨plain, rfl⟩⟩
  | @select _ _ nested p flag name rest fit' inner front back earlier' fits' scope aligned later =>
    obtain ⟨rfl, rfl, rfl⟩ := eq_of_first split earlier' (by simp [fits']) earlier isFit
    obtain rfl : fit = fit' := Option.some.inj (fits.symm.trans fits')
    exact ⟨front, _, back, rfl, aligned, later, .inr ⟨p, nested, flag, name, rest, inner, rfl, rfl, rfl, scope⟩⟩

/-- A match leaves one thing in the place of each option. -/
theorem Leaves.unique (first : Leaves options tokens ledger) (second : Leaves options tokens other) : ledger = other := by
  induction first generalizing other with
  | stop misses =>
    cases second with
    | stop => rfl
    | claim _ _ fits | select _ fits =>
      rw [misses _ (List.mem_append_right _ List.mem_cons_self)] at fits
      cases fits
  | claim plain earlier fits aligned later ih =>
    obtain ⟨front', own, back', rfl, aligned', later', ⟨-, rfl⟩ | ⟨p, nested, _, _, _, _, isProtocol, -⟩⟩ :=
      second.of_fits rfl earlier fits
    · obtain ⟨rfl, rfl⟩ := List.append_inj (ih later') (aligned.trans aligned'.symm)
      rfl
    · exact absurd isProtocol (plain p nested)
  | select earlier fits scope aligned later ihScope ih =>
    obtain ⟨front', own, back', rfl, aligned', later', ⟨plain, -⟩ | ⟨p, nested, flag, name, rest, inner, isProtocol, own,
      rfl, scope'⟩⟩ := second.of_fits rfl earlier fits
    · exact absurd rfl (plain _ _)
    · cases isProtocol
      cases own
      obtain ⟨rfl, rfl⟩ := List.append_inj (ih later') (aligned.trans aligned'.symm)
      rw [ihScope scope']

end

/-! ## Proposals -/

section

variable {matched : List Part} {options : List Flag} {flag other : Flag} {tokens : List Token} {fit : Fit}
  {ledger : List (List Flag)}

theorem allProposals_eq_flatMap (matched : List Part) (options : List Flag) :
    allProposals matched options = options.flatMap (proposals matched) := by
  induction options with
  | nil => rfl
  | cons option options ih => rw [allProposals, ih, List.flatMap_cons]

/-- Flags propose what is proposed in the place of each one. -/
theorem allProposals_of_map
    (same : options.map (proposals matched) = ledger.map fun left => left.flatMap (proposals matched)) :
    allProposals matched options = ledger.flatten.flatMap (proposals matched) := by
  rw [allProposals_eq_flatMap, List.flatMap_def, same, List.flatMap_def, List.map_flatten, List.flatten_flatten,
    List.map_map]
  rfl

/-- A flag without options proposes its forms unless something of its meaning was matched. -/
theorem proposals_of_plain (plain : flag.IsPlain) :
    flag.proposals matched = if matched.any flag.produces then [] else flag.forms := by
  cases flag with
  | protocol p nested => exact absurd rfl (plain p nested)
  | _ => simp only [proposals]

theorem proposals_of_unmatched (unmatched : matched.any flag.produces = false) : flag.proposals matched = flag.forms := by
  rcases flag.protocol_or_isPlain with ⟨p, nested, rfl⟩ | plain
  · rw [proposals, unmatched, if_neg Bool.false_ne_true]
  · rw [proposals_of_plain plain, unmatched, if_neg Bool.false_ne_true]

/-- Flags that stand for the same condition produce the same parts. -/
theorem produces_congr (same : flag.condition? = other.condition?) : flag.produces = other.produces := by
  funext part
  simp only [produces, same]

/-- A flag produces the conditions that it stands for; one that stands for none produces the actions. -/
theorem produces_eq_true_iff {part : Part} (behind : part.IsBehind) :
    flag.produces part = true ↔ part.condition? = flag.condition? := by
  cases own : flag.condition? with
  | some c =>
    rw [produces_iff own]
    cases part <;> simp [Part.condition?]
  | none => cases part <;> first | exact behind.elim | simp [produces, own, Part.condition?]

/-- A flag without options recognizes one part, which it produces. -/
theorem parts_of_plain (plain : flag.IsPlain) (fits : flag.fit? tokens = some fit) :
    ∃ part, parts fit.elements = [part] ∧ part.condition? = flag.condition? := by
  cases flag with
  | protocol p nested => exact absurd rfl (plain p nested)
  | port side p =>
    obtain ⟨front, word, value, back, port, -, -, -, -, rfl⟩ := portFit?_eq_some_iff.1 fits
    exact ⟨_, rfl, rfl⟩
  | address | interface | state =>
    obtain ⟨word, value, rest, -, -, -, rfl⟩ := Clause.valueFit?_eq_some_iff.1 fits
    exact ⟨_, rfl, rfl⟩
  | jump =>
    obtain ⟨a, target?, -, -, own, -⟩ := Clause.jumpFit?_sound fits
    exact ⟨_, own, rfl⟩

/-- A flag that fits produces one of the parts that it recognizes. -/
theorem any_produces_of_fit? (fits : flag.fit? tokens = some fit) (inside : parts fit.elements ⊆ matched) :
    matched.any flag.produces = true := by
  have behind := behind_of_fit? flag fits
  obtain ⟨part, member, same⟩ : ∃ part ∈ parts fit.elements, part.condition? = flag.condition? := by
    rcases flag.protocol_or_isPlain with ⟨p, nested, rfl⟩ | plain
    · obtain ⟨_, _, _, -, -, -, rfl⟩ := fit?_protocol_eq_some_iff.1 fits
      exact ⟨_, List.mem_cons_self, rfl⟩
    · obtain ⟨part, own, same⟩ := parts_of_plain plain fits
      exact ⟨part, by simp [own], same⟩
  exact List.any_eq_true.2 ⟨part, inside member, (produces_eq_true_iff (behind part member)).2 same⟩

/-- In the place of each option, what the match leaves there is asked for proposals. -/
theorem Leaves.map_proposals (leaves : Leaves options tokens ledger)
    (inside : parts (scan options tokens).elements ⊆ matched) :
    options.map (proposals matched) = ledger.map fun left => left.flatMap (proposals matched) := by
  induction leaves with
  | stop misses => simp
  | @claim before after option tokens fit front back plain earlier fits aligned later ih =>
    rw [scan, greedy_of_fits earlier fits, parts, List.map_append, List.append_subset] at inside
    obtain ⟨ahead, behind⟩ := List.append_inj (by simpa using ih inside.2) (by simp [aligned])
    have own : option.proposals matched = [] := by
      rw [proposals_of_plain plain, any_produces_of_fit? fits inside.1, if_pos rfl]
    rw [List.map_append, List.map_cons, ahead, behind, own, List.map_append, List.map_cons, List.flatMap_nil]
  | @select before after nested p flag name rest fit inner front back earlier fits scope aligned later ihScope ih =>
    rw [scan, greedy_of_fits earlier fits, parts, List.map_append, List.append_subset] at inside
    obtain ⟨ahead, behind⟩ := List.append_inj (by simpa using ih inside.2) (by simp [aligned])
    have isMatched := any_produces_of_fit? fits inside.1
    obtain ⟨_, _, _, same, -, -, rfl⟩ := fit?_protocol_eq_some_iff.1 fits
    cases same
    -- The protocol was matched, so it hands the question on to its options, and what their match recognized is there too.
    have within := ihScope fun part member => inside.1 (List.mem_cons_of_mem _ member)
    have own : (protocol p nested).proposals matched = inner.flatten.flatMap (proposals matched) := by
      rw [proposals, isMatched, if_pos rfl, allProposals_of_map within]
    rw [List.map_append, List.map_cons, ahead, behind, own, List.map_append, List.map_cons]

/-! ## Forms that are missed -/

theorem forms_ne_nil (flag : Flag) : flag.forms ≠ [] := by
  unfold forms
  split
  · simp
  · decide

/-- The form of a protocol is no form of a flag that stands for something else. -/
theorem condition?_of_mem_forms {p : Protocol} (member : Text.joinWords (Condition.protocol p).keyword ∈ flag.forms) :
    flag.condition? = some (.protocol p) := by
  unfold forms at member
  cases stands : flag.condition? with
  | some c =>
    rw [stands] at member
    have same := List.mem_singleton.1 member
    clear member stands
    revert same
    cases c with
    | protocol q => cases p <;> cases q <;> decide
    | port side q => cases p <;> cases side <;> cases q <;> decide
    | address side => cases p <;> cases side <;> decide
    | interface direction => cases p <;> cases direction <;> decide
    | state => cases p <;> decide
  | none =>
    rw [stands] at member
    revert member
    cases p <;> decide

/-- Every proposal is a form of a flag that produced nothing. -/
theorem exists_of_mem_proposals {form : String} (flag : Flag) (proposed : form ∈ flag.proposals matched) :
    ∃ other : Flag, matched.any other.produces = false ∧ form ∈ other.forms := by
  induction flag using Flag.induction with
  | protocol p options ih =>
    cases isMatched : matched.any (protocol p options).produces with
    | false => exact ⟨_, isMatched, proposals_of_unmatched isMatched ▸ proposed⟩
    | true =>
      rw [proposals, isMatched, if_pos rfl] at proposed
      obtain ⟨option, member, proposed⟩ := mem_allProposals.1 proposed
      exact ih option member proposed
  | _ => exact ⟨_, (mem_proposals_iff (by simp [condition?])).1 proposed⟩

/-- A protocol whose form is proposed was not matched. -/
theorem unmatched_of_proposed {p : Protocol} {nested : List Flag}
    (proposed : Text.joinWords (Condition.protocol p).keyword ∈ flag.proposals matched) :
    matched.any (protocol p nested).produces = false := by
  obtain ⟨other, unmatched, isForm⟩ := exists_of_mem_proposals flag proposed
  have same : other.condition? = (protocol p nested).condition? := condition?_of_mem_forms isForm
  rw [← produces_congr same]
  exact unmatched

/-- Flags propose all their forms exactly if none of them means something that was matched. -/
theorem flatMap_proposals_eq_iff (left : List Flag) :
    left.flatMap (proposals matched) = left.flatMap forms ↔ ∀ flag ∈ left, matched.any flag.produces = false := by
  constructor
  · intro same
    -- The form of a protocol is proposed, so it was not matched, and each flag proposes all of its forms or none.
    have each : ∀ flag ∈ left, flag.proposals matched = if matched.any flag.produces then [] else flag.forms := by
      intro flag member
      rcases flag.protocol_or_isPlain with ⟨p, nested, rfl⟩ | plain
      · have form : Text.joinWords (Condition.protocol p).keyword ∈ left.flatMap (proposals matched) :=
          same ▸ List.mem_flatMap.2 ⟨_, member, List.mem_singleton.2 rfl⟩
        obtain ⟨other, -, proposed⟩ := List.mem_flatMap.1 form
        have unmatched := @unmatched_of_proposed _ _ _ nested proposed
        rw [proposals_of_unmatched unmatched, unmatched, if_neg Bool.false_ne_true]
      · exact proposals_of_plain plain
    have fewer : ∀ flag ∈ left, (flag.proposals matched).Sublist flag.forms := by
      intro flag member
      rw [each flag member]
      split
      · exact List.nil_sublist _
      · exact .refl _
    intro flag member
    by_contra isMatched
    rw [Bool.not_eq_false] at isMatched
    have own := eq_of_flatMap_eq fewer same flag member
    rw [each flag member, isMatched, if_pos rfl] at own
    exact forms_ne_nil flag own.symm
  · intro unmatched
    exact List.flatMap_congr fun flag member => proposals_of_unmatched (unmatched flag member)

end

/-! ## Options that do not repeat -/

mutual

/-- A flag and the options that it has, with those of the options. -/
def withOptions : Flag → List Flag
  | protocol p options => protocol p options :: allWithOptions options
  | flag => [flag]

/-- Flags and the options that they have. -/
def allWithOptions : List Flag → List Flag
  | [] => []
  | flag :: flags => withOptions flag ++ allWithOptions flags

end

section

variable {options : List Flag} {flag : Flag} {tokens : List Token} {ledger : List (List Flag)}

@[simp] theorem allWithOptions_append (front back : List Flag) :
    allWithOptions (front ++ back) = allWithOptions front ++ allWithOptions back := by
  induction front with
  | nil => rfl
  | cons flag front ih => rw [List.cons_append, allWithOptions, allWithOptions, ih, List.append_assoc]

theorem withOptions_of_plain (plain : flag.IsPlain) : flag.withOptions = [flag] := by
  cases flag with
  | protocol p nested => exact absurd rfl (plain p nested)
  | _ => simp only [withOptions]

theorem sublist_allWithOptions (options : List Flag) : options.Sublist (allWithOptions options) := by
  induction options with
  | nil => exact .slnil
  | cons flag options ih =>
    have own : [flag].Sublist flag.withOptions := by cases flag <;> simp [withOptions]
    simpa [allWithOptions] using own.append ih

/-- What is left and what was matched come from different options: no condition occurs in both more often than there
    are options that stand for it. -/
theorem Leaves.count_le (leaves : Leaves options tokens ledger) (condition? : Option Condition) :
    (ledger.flatten.map Flag.condition?).count condition? +
        ((parts (scan options tokens).elements).map Part.condition?).count condition? ≤
      ((allWithOptions options).map Flag.condition?).count condition? := by
  induction leaves with
  | @stop options tokens misses =>
    rw [scan, greedy_of_misses misses, ← List.flatMap_def, List.flatMap_singleton']
    exact ((sublist_allWithOptions options).map Flag.condition?).count_le _
  | @claim before after option tokens fit front back plain earlier fits aligned later ih =>
    obtain ⟨part, own, same⟩ := parts_of_plain plain fits
    rw [parts] at own
    rw [scan, greedy_of_fits earlier fits]
    simp only [scan, parts, List.flatten_append, List.flatten_cons, List.map_append, List.count_append,
      allWithOptions_append, allWithOptions, withOptions_of_plain plain, own, List.map_cons, List.map_nil, same,
      List.count_nil] at ih ⊢
    omega
  | @select before after nested p flag name rest fit inner front back earlier fits scope aligned later ihScope ih =>
    rw [scan, greedy_of_fits earlier fits]
    obtain ⟨_, _, _, same, -, -, rfl⟩ := fit?_protocol_eq_some_iff.1 fits
    cases same
    -- The options of the protocol and the others are counted apart.
    have own : (Element.ofTyped (.condition (.protocol p) none) [flag.text, name.text]).part.condition? =
      (protocol p nested).condition? := rfl
    simp only [scan, parts, List.flatten_append, List.flatten_cons, List.map_append, List.count_append,
      allWithOptions_append, allWithOptions, withOptions, List.map_cons, List.cons_append, List.count_cons, own]
      at ih ihScope ⊢
    omega

/-- Options of which no two stand for the same produce nothing that another one is left for. -/
theorem Leaves.unmatched_of_nodup (leaves : Leaves options tokens ledger)
    (nodup : ((allWithOptions options).map Flag.condition?).Nodup) :
    ∀ option ∈ ledger.flatten, (parts (scan options tokens).elements).any option.produces = false := by
  intro option member
  rw [List.any_eq_false]
  intro part isPart produced
  have behind := behind_of_claims (claims_greedy fit? options tokens) (fun flag _ _ _ => behind_of_fit? flag) part isPart
  have same := (produces_eq_true_iff behind).1 produced
  have isLeft := List.one_le_count_iff.2
    (List.mem_map_of_mem member : option.condition? ∈ ledger.flatten.map Flag.condition?)
  have wasMatched := List.one_le_count_iff.2
    (List.mem_map_of_mem isPart : part.condition? ∈ (parts (scan options tokens).elements).map Part.condition?)
  have total := leaves.count_le option.condition?
  have once := List.nodup_iff_count_le_one.1 nodup option.condition?
  rw [same] at wasMatched
  omega

end

end Flag

/-! ## Specifications -/

/-- Forms as they are proposed: none if there are none. -/
def offered? (forms : List String) : Option (List String) := if forms = [] then none else some forms

theorem getD_offered? (forms : List String) : (offered? forms).getD [] = forms := by
  cases forms <;> rfl

theorem offered?_inj {a b : List String} : offered? a = offered? b ↔ a = b :=
  ⟨fun same => by rw [← getD_offered? a, same, getD_offered?], congrArg offered?⟩

theorem Component.proposals?_eq_offered? (options : List Flag) (matched : List Part) (context : Context) :
    (Component.flags options).proposals? matched context = offered? (Flag.allProposals matched options) := by
  rw [proposals?, offered?]
  cases Flag.allProposals matched options <;> rfl

/-- What the flags of a component propose behind their own match: whatever the options that are left propose, each by its
    meaning. These are all of their forms, and none exactly if no option is left, unless an option is left that means
    something that was matched; no such option is left if no two options stand for the same. -/
theorem Component.proposals?_flags (options : List Flag) (tokens : List Token) (context : Context) :
    let matched := parts (Flag.scan options tokens).elements
    let proposed? := (Component.flags options).proposals? matched context
    ∃ ledger, Flag.Leaves options tokens ledger ∧ (∀ other, Flag.Leaves options tokens other → other = ledger) ∧
      let left := ledger.flatten
      let forms? := if left = [] then none else some (left.flatMap Flag.forms)
      proposed?.getD [] = left.flatMap (Flag.proposals matched) ∧
        (proposed? = forms? ↔ ∀ option ∈ left, matched.any option.produces = false) ∧
        (((Flag.allWithOptions options).map Flag.condition?).Nodup → proposed? = forms?) := by
  intro matched proposed?
  obtain ⟨ledger, leaves⟩ := Flag.exists_leaves options tokens
  refine ⟨ledger, leaves, fun other leaves' => leaves'.unique leaves, ?_⟩
  intro left forms?
  have all : Flag.allProposals matched options = left.flatMap (Flag.proposals matched) :=
    Flag.allProposals_of_map (leaves.map_proposals (List.Subset.refl _))
  have isProposed : proposed? = offered? (left.flatMap (Flag.proposals matched)) :=
    all ▸ proposals?_eq_offered? options matched context
  have isForms : forms? = offered? (left.flatMap Flag.forms) := by
    cases member : left with
    | nil => simp [forms?, member, offered?]
    | cons flag left => simp [forms?, member, offered?, Flag.forms_ne_nil]
  have agrees : proposed? = forms? ↔ ∀ option ∈ left, matched.any option.produces = false := by
    rw [← Flag.flatMap_proposals_eq_iff, isProposed, isForms, offered?_inj]
  exact ⟨by rw [isProposed, getD_offered?], agrees, fun nodup => agrees.2 (leaves.unmatched_of_nodup nodup)⟩

/-- A jump that is left is not proposed if another one was matched. -/
theorem Component.proposals?_two_jumps :
    let options := [Flag.jump, .jump]
    let tokens := Token.ofTexts ["-j", "DROP"]
    let ledger := [[], [Flag.jump]]
    (Flag.scan options tokens).fit? ≠ none ∧ Flag.Leaves options tokens ledger ∧
      (Component.flags options).proposals? (parts (Flag.scan options tokens).elements) .unknown = none ∧
      ledger.flatten.flatMap Flag.forms =
        ["-j ACCEPT", "-j DROP", "-j SNAT --to-source", "-j DNAT --to-destination"] := by
  intro options tokens ledger
  have fits : Flag.jump.fit? tokens = some ⟨[.ofTyped (.action .drop none) ["-j", "DROP"]], []⟩ := by decide
  have leaves : Flag.Leaves options tokens ledger :=
    @Flag.Leaves.claim [] [.jump] .jump tokens _ [] [[.jump]] (by simp [Flag.IsPlain]) (by simp) fits rfl (.stop (by decide))
  exact ⟨by decide, leaves, by decide, by decide⟩

end PacketFilter.Grammar
