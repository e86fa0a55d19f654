import PacketFilter.Grammar.Greedy

/-!
# Greedy matching as a sequence of claims

A greedy match is a sequence of claims: each one takes the first option that fits what is left, and it
stops when no option fits. Options that commute may be claimed in any order. Main statements: `claims_iff`,
`greedy_of_commutes` and `Claims.greedy_append`.
-/

namespace PacketFilter.Grammar

variable {α : Type}

/-- The claims that lead from options and tokens to the result of a match. -/
inductive Claims (fit? : α → Recognizer) : List α → List Token → Scan α → Prop where
  | stop {options : List α} {tokens : List Token} (misses : ∀ option ∈ options, fit? option tokens = none) :
      Claims fit? options tokens ⟨[], tokens, options⟩
  | claim {before after : List α} {option : α} {tokens : List Token} {fit : Fit} {scan : Scan α}
      (earlier : ∀ other ∈ before, fit? other tokens = none) (fits : fit? option tokens = some fit)
      (later : Claims fit? (before ++ after) fit.rest scan) :
      Claims fit? (before ++ option :: after) tokens ⟨fit.elements ++ scan.elements, scan.rest, scan.unclaimed⟩

theorem claims_greedyUpTo (fit? : α → Recognizer) {limit : Nat} {options : List α} (tokens : List Token)
    (enough : options.length ≤ limit) : Claims fit? options tokens (greedyUpTo fit? limit options tokens) := by
  induction limit generalizing options tokens with
  | zero =>
    obtain rfl : options = [] := List.length_eq_zero_iff.1 (by omega)
    exact .stop (by simp)
  | succ limit ih =>
    rw [greedyUpTo]
    cases found : firstFit? fit? options tokens with
    | none => exact .stop (firstFit?_eq_none_iff.1 found)
    | some claimed =>
      obtain ⟨fit, others⟩ := claimed
      obtain ⟨before, option, after, rfl, rfl, earlier, fits⟩ := firstFit?_eq_some_iff.1 found
      exact .claim earlier fits (ih fit.rest (by simp at enough ⊢; omega))

theorem claims_greedy (fit? : α → Recognizer) (options : List α) (tokens : List Token) :
    Claims fit? options tokens (greedy fit? options tokens) :=
  claims_greedyUpTo fit? tokens (Nat.le_refl _)

/-- No two sequences of claims start from the same options and tokens. -/
theorem Claims.unique {fit? : α → Recognizer} {options : List α} {tokens : List Token} {a b : Scan α}
    (ha : Claims fit? options tokens a) (hb : Claims fit? options tokens b) : a = b := by
  induction ha generalizing b with
  | @stop options tokens misses =>
    cases hb with
    | stop => rfl
    | @claim _ _ option _ _ _ _ fits => simp [misses option (by simp)] at fits
  | @claim before after option tokens fit scan earlier fits later ih =>
    have first : firstFit? fit? (before ++ option :: after) tokens = some (fit, before ++ after) :=
      firstFit?_eq_some_iff.2 ⟨before, option, after, rfl, rfl, earlier, fits⟩
    generalize start : before ++ option :: after = options at first hb
    cases hb with
    | stop misses => simp [misses option (by simp [← start])] at fits
    | @claim before' after' option' _ fit' scan' earlier' fits' later' =>
      -- Both claim the first option that fits, so they split the options at one place.
      have again := firstFit?_eq_some_iff.2 ⟨before', option', after', rfl, rfl, earlier', fits'⟩
      obtain ⟨rfl, others⟩ : fit = fit' ∧ before ++ after = before' ++ after' := by simpa [first] using again
      rw [ih (others ▸ later')]

/-- A greedy match is the result of its claims. -/
theorem claims_iff {fit? : α → Recognizer} {options : List α} {tokens : List Token} {scan : Scan α} :
    Claims fit? options tokens scan ↔ scan = greedy fit? options tokens :=
  ⟨fun claims => claims.unique (claims_greedy fit? options tokens), fun same => same ▸ claims_greedy fit? options tokens⟩

theorem greedy_of_misses {fit? : α → Recognizer} {options : List α} {tokens : List Token}
    (misses : ∀ option ∈ options, fit? option tokens = none) : greedy fit? options tokens = ⟨[], tokens, options⟩ :=
  (claims_iff.1 (.stop misses)).symm

theorem greedy_of_fits {fit? : α → Recognizer} {before after : List α} {option : α} {tokens : List Token} {fit : Fit}
    (earlier : ∀ other ∈ before, fit? other tokens = none) (fits : fit? option tokens = some fit) :
    greedy fit? (before ++ option :: after) tokens =
      let scan := greedy fit? (before ++ after) fit.rest
      ⟨fit.elements ++ scan.elements, scan.rest, scan.unclaimed⟩ :=
  (claims_iff.1 (.claim earlier fits (claims_greedy fit? (before ++ after) fit.rest))).symm

/-- What a match leaves unclaimed fits nothing of its rest. -/
theorem Claims.misses {fit? : α → Recognizer} {options : List α} {tokens : List Token} {scan : Scan α}
    (claims : Claims fit? options tokens scan) : ∀ option ∈ scan.unclaimed, fit? option scan.rest = none := by
  induction claims with
  | stop misses => exact misses
  | claim _ _ _ ih => exact ih

theorem Claims.unclaimed_sublist {fit? : α → Recognizer} {options : List α} {tokens : List Token} {scan : Scan α}
    (claims : Claims fit? options tokens scan) : scan.unclaimed.Sublist options := by
  induction claims with
  | stop => exact .refl _
  | claim _ _ _ ih => exact ih.trans (by simp)

/-- What holds of nothing, of each option that fits, and of two matches in a row holds of claims. -/
theorem Claims.compose {R : List Element → List Token → List Token → Prop} {fit? : α → Recognizer} {options : List α}
    {tokens : List Token} {scan : Scan α} (claims : Claims fit? options tokens scan) (refl : ∀ tokens, R [] tokens tokens)
    (trans : ∀ {first later rest middle tokens}, R first middle tokens → R later rest middle →
      R (first ++ later) rest tokens)
    (each : ∀ option ∈ options, ∀ tokens fit, fit? option tokens = some fit → R fit.elements fit.rest tokens) :
    R scan.elements scan.rest tokens := by
  induction claims with
  | stop => exact refl _
  | @claim before after option tokens fit scan earlier fits later ih =>
    have fewer : (before ++ after).Sublist (before ++ option :: after) := by simp
    exact trans (each option (by simp) tokens fit fits) (ih fun other member => each other (fewer.subset member))

/-! ## Options that commute -/

/-- Two options commute when each fits behind the other what both fit, with one rest. -/
def Commutes (fit? : α → Recognizer) (a b : α) : Prop :=
  ∀ tokens first second, fit? a tokens = some first → fit? b tokens = some second →
    ∃ rest, fit? b first.rest = some ⟨second.elements, rest⟩ ∧ fit? a second.rest = some ⟨first.elements, rest⟩

/-- If options commute, any one that fits may be claimed first. -/
theorem greedy_of_commutes {fit? : α → Recognizer} {before after : List α} {option : α} {tokens : List Token} {fit : Fit}
    (commutes : (before ++ option :: after).Pairwise (Commutes fit?)) (fits : fit? option tokens = some fit) :
    let whole := greedy fit? (before ++ option :: after) tokens
    let others := greedy fit? (before ++ after) fit.rest
    whole.rest = others.rest ∧ whole.elements.Perm (fit.elements ++ others.elements) := by
  induction size : before.length using Nat.strongRecOn generalizing before after option tokens fit with
  | ind size ih =>
    by_cases earlier : ∀ other ∈ before, fit? other tokens = none
    · rw [greedy_of_fits earlier fits]
      exact ⟨rfl, .refl _⟩
    · have claimed : firstFit? fit? before tokens ≠ none := fun missed => earlier (firstFit?_eq_none_iff.1 missed)
      obtain ⟨⟨found, left⟩, claimed⟩ := Option.ne_none_iff_exists'.1 claimed
      obtain ⟨front, other, back, rfl, -, misses, fitsOther⟩ := firstFit?_eq_some_iff.1 claimed
      rw [List.length_append, List.length_cons] at size
      simp only [List.append_assoc, List.cons_append] at commutes ⊢
      -- The match claims `other`; `option` fits behind it, and `other` fits behind `option`.
      have both : Commutes fit? other option := by
        have inner := (List.pairwise_append.1 commutes).2.1
        exact (List.pairwise_cons.1 inner).1 option (by simp)
      obtain ⟨rest, behindOther, behindOption⟩ := both tokens found fit fitsOther fits
      obtain ⟨restOther, elementsOther⟩ := @ih (front ++ back).length (by simp; omega) (front ++ back) after option
        found.rest _ (by simpa using commutes.sublist (by simp)) behindOther rfl
      obtain ⟨restOption, elementsOption⟩ := @ih front.length (by omega) front (back ++ after) other
        fit.rest _ (commutes.sublist (by simp)) behindOption rfl
      simp only [List.append_assoc] at restOther elementsOther
      rw [greedy_of_fits misses fitsOther]
      refine ⟨restOther.trans restOption.symm, ?_⟩
      calc List.Perm (found.elements ++ (greedy fit? (front ++ (back ++ option :: after)) found.rest).elements)
            (found.elements ++ (fit.elements ++ (greedy fit? (front ++ (back ++ after)) rest).elements)) :=
              elementsOther.append_left _
        List.Perm _ (fit.elements ++ (found.elements ++ (greedy fit? (front ++ (back ++ after)) rest).elements)) := by
          simpa only [List.append_assoc] using
            (@List.perm_append_comm _ found.elements fit.elements).append_right
              (greedy fit? (front ++ (back ++ after)) rest).elements
        List.Perm _ (fit.elements ++ (greedy fit? (front ++ other :: (back ++ after)) fit.rest).elements) :=
          elementsOption.symm.append_left _

/-- If options commute, and fit more tokens where they fit some, a match of more tokens may begin with the match of
    some: what it left unclaimed goes on behind it. -/
theorem Claims.greedy_append {fit? : α → Recognizer} {options : List α} {tokens more : List Token} {scan : Scan α}
    (claims : Claims fit? options tokens scan) (commutes : options.Pairwise (Commutes fit?))
    (grows : ∀ option ∈ options, ∀ tokens fit, fit? option tokens = some fit →
      fit? option (tokens ++ more) = some ⟨fit.elements, fit.rest ++ more⟩) :
    let longer := greedy fit? options (tokens ++ more)
    let later := greedy fit? scan.unclaimed (scan.rest ++ more)
    longer.rest = later.rest ∧ longer.elements.Perm (scan.elements ++ later.elements) := by
  induction claims with
  | stop => exact ⟨rfl, .refl _⟩
  | @claim before after option tokens fit scan earlier fits later ih =>
    obtain ⟨rest, elements⟩ := greedy_of_commutes commutes (grows option (by simp) tokens fit fits)
    have fewer : (before ++ after).Sublist (before ++ option :: after) := by simp
    obtain ⟨restLater, elementsLater⟩ := ih (commutes.sublist fewer) fun other member =>
      grows other (fewer.subset member)
    refine ⟨rest.trans restLater, elements.trans ?_⟩
    rw [List.append_assoc]
    exact elementsLater.append_left _

end PacketFilter.Grammar
