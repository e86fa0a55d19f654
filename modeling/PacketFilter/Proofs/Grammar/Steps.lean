import Mathlib.Data.Finset.Card
import Mathlib.Logic.Relation
import PacketFilter.Proofs.Grammar.Stock

/-!
# Greedy matching step by step

A match claims options by their index: a step claims the lowest option that is not claimed yet and fits the tokens that
are left, and there is no step any more when no token is left or no such option fits. Two matches of one list of options
end in the same state, and a loop over the index, which starts again after each claim, ends there. Main statements:
`Step.unique`, `sweep_spec`, and `scan_steps`, the match of flags is the end of its steps.
-/

namespace PacketFilter.Grammar

/-- How far a match has come: the indices of the options claimed, the elements recognized and the tokens left. -/
structure Progress where
  claimed : List Nat
  elements : List Element
  rest : List Token

namespace Progress

/-- Before the first claim. -/
def start (tokens : List Token) : Progress := ⟨[], [], tokens⟩

/-- After the claim of an option. -/
def claim (state : Progress) (index : Nat) (fit : Fit) : Progress :=
  ⟨state.claimed ++ [index], state.elements ++ fit.elements, fit.rest⟩

end Progress

section Steps

variable {α : Type} {fit? : α → Recognizer} {options : List α} {index : Nat} {state next : Progress} {tokens : List Token}

/-- No option below an index fits, except those claimed. -/
def MissesBelow (fit? : α → Recognizer) (options : List α) (state : Progress) (index : Nat) : Prop :=
  ∀ lower < index, lower ∉ state.claimed → ∀ option, options[lower]? = some option → fit? option state.rest = none

theorem MissesBelow.succ (below : MissesBelow fit? options state index)
    (own : index ∉ state.claimed → ∀ option, options[index]? = some option → fit? option state.rest = none) :
    MissesBelow fit? options state (index + 1) := by
  intro lower low fresh
  obtain before | rfl := Nat.lt_succ_iff_lt_or_eq.1 low
  · exact below lower before fresh
  · exact own fresh

/-- A step claims the lowest option that is not claimed yet and fits. -/
inductive Step (fit? : α → Recognizer) (options : List α) : Progress → Progress → Prop where
  | claim {state : Progress} {index : Nat} {option : α} {fit : Fit} (found : options[index]? = some option)
      (fresh : index ∉ state.claimed) (fits : fit? option state.rest = some fit)
      (lowest : MissesBelow fit? options state index) : Step fit? options state (state.claim index fit)

/-- A match is done when no token is left or no option fits, except those claimed. -/
def Done (fit? : α → Recognizer) (options : List α) (state : Progress) : Prop :=
  state.rest = [] ∨ MissesBelow fit? options state options.length

/-- There is at most one step. -/
theorem Step.unique {a b c : Progress} (first : Step fit? options a b) (second : Step fit? options a c) : b = c := by
  cases first with
  | @claim i option fit found fresh fits lowest =>
    cases second with
    | @claim j option' fit' found' fresh' fits' lowest' =>
      obtain before | rfl | behind := Nat.lt_trichotomy i j
      · rw [lowest' i before fresh option found] at fits
        cases fits
      · obtain rfl : option = option' := Option.some.inj (found.symm.trans found')
        obtain rfl : fit = fit' := Option.some.inj (fits.symm.trans fits')
        rfl
      · rw [lowest j behind fresh' option' found'] at fits'
        cases fits'

theorem Done.not_step (unfit : ∀ option, fit? option [] = none) (done : Done fit? options state) :
    ¬ Step fit? options state next := by
  rintro ⟨found, fresh, fits, lowest⟩
  obtain empty | misses := done
  · rw [empty, unfit] at fits
    cases fits
  · have inside := (List.getElem?_eq_some_iff.1 found).1
    rw [misses _ inside fresh _ found] at fits
    cases fits

/-- The steps of a match end in one state at most. -/
theorem Done.unique (unfit : ∀ option, fit? option [] = none) {a b : Progress}
    (first : Relation.ReflTransGen (Step fit? options) state a) (firstDone : Done fit? options a)
    (second : Relation.ReflTransGen (Step fit? options) state b) (secondDone : Done fit? options b) : a = b := by
  have rightUnique : Relator.RightUnique (Step fit? options) := fun _ _ _ => Step.unique
  obtain path | path := Relation.ReflTransGen.total_of_right_unique rightUnique first second
  · obtain rfl | ⟨_, step, _⟩ := path.cases_head
    · rfl
    · exact absurd step (firstDone.not_step unfit)
  · obtain rfl | ⟨_, step, _⟩ := path.cases_head
    · rfl
    · exact absurd step (secondDone.not_step unfit)

/-! ## The loop -/

/-- The indices of the options not claimed yet. -/
def unclaimed (options : List α) (state : Progress) : Finset Nat :=
  (Finset.range options.length).filter fun index => index ∉ state.claimed

theorem card_unclaimed_claim (inside : index < options.length) (fresh : index ∉ state.claimed) (fit : Fit) :
    (unclaimed options (state.claim index fit)).card < (unclaimed options state).card := by
  refine Finset.card_lt_card (Finset.ssubset_iff_of_subset ?_ |>.2 ⟨index, ?_, ?_⟩)
  · intro other
    simp only [unclaimed, Progress.claim, Finset.mem_filter, List.mem_append, not_or]
    exact fun ⟨isIn, isFresh, _⟩ => ⟨isIn, isFresh⟩
  · simp [unclaimed, inside, fresh]
  · simp [unclaimed, Progress.claim]

/-- The match as a loop: an index runs over the options, a claim sends it back to the first one, and the loop ends
    behind the last one or when no token is left. -/
def sweep (fit? : α → Recognizer) (options : List α) (index : Nat) (state : Progress) : Progress :=
  if inside : index < options.length ∧ state.rest ≠ [] then
    if fresh : index ∉ state.claimed then
      match options[index]?.bind fun option => fit? option state.rest with
      | some fit => sweep fit? options 0 (state.claim index fit)
      | none => sweep fit? options (index + 1) state
    else sweep fit? options (index + 1) state
  else state
termination_by ((unclaimed options state).card, options.length - index)
decreasing_by
  · exact Prod.Lex.left _ _ (card_unclaimed_claim inside.1 fresh fit)
  · exact Prod.Lex.right _ (by omega)
  · exact Prod.Lex.right _ (by omega)

/-- The loop takes steps, and ends where the match is done. What carries it: no option below the index fits. -/
theorem sweep_spec (index : Nat) (state : Progress) (below : MissesBelow fit? options state index) :
    Relation.ReflTransGen (Step fit? options) state (sweep fit? options index state) ∧
      Done fit? options (sweep fit? options index state) := by
  fun_induction sweep fit? options index state with
  | case1 index state inside fresh fit fits ih =>
    obtain ⟨option, found, own⟩ := Option.bind_eq_some_iff.1 fits
    obtain ⟨path, done⟩ := ih fun lower none => absurd none (Nat.not_lt_zero lower)
    exact ⟨path.head (.claim found fresh own below), done⟩
  | case2 index state inside fresh misses ih =>
    exact ih (below.succ fun _ option found => Option.bind_eq_none_iff.1 misses option found)
  | case3 index state inside claimed ih => exact ih (below.succ fun fresh => absurd fresh claimed)
  | case4 index state outside =>
    refine ⟨.refl, ?_⟩
    by_cases empty : state.rest = []
    · exact .inl empty
    · have behind : options.length ≤ index := Nat.not_lt.1 fun inside => outside ⟨inside, empty⟩
      exact .inr fun lower low => below lower (Nat.lt_of_lt_of_le low behind)

/-- Each option is claimed once at most. -/
theorem nodup_of_steps {final : Progress} (path : Relation.ReflTransGen (Step fit? options) (.start tokens) final) :
    final.claimed.Nodup ∧ ∀ index ∈ final.claimed, index < options.length := by
  induction path with
  | refl => simp [Progress.start]
  | tail _ step ih =>
    obtain ⟨nodup, inside⟩ := ih
    obtain ⟨found, fresh, fits, lowest⟩ := step
    have bound := (List.getElem?_eq_some_iff.1 found).1
    refine ⟨List.Nodup.append nodup (List.nodup_singleton _) ?_, ?_⟩
    · simpa using fresh
    · intro other member
      rcases List.mem_append.1 member with earlier | own
      · exact inside other earlier
      · exact List.mem_singleton.1 own ▸ bound

/-! ## Steps and claims -/

/-- The options of those entries whose index is not claimed. -/
def without (claimed : List Nat) (entries : List (α × Nat)) : List α :=
  (entries.filter fun entry => entry.2 ∉ claimed).map Prod.fst

/-- The options not claimed yet, in their order. -/
def remaining (options : List α) (state : Progress) : List α := without state.claimed options.zipIdx

theorem without_concat {claimed : List Nat} {entries : List (α × Nat)} (away : ∀ entry ∈ entries, entry.2 ≠ index) :
    without (claimed ++ [index]) entries = without claimed entries := by
  have same : entries.filter (fun entry => entry.2 ∉ claimed ++ [index]) = entries.filter fun entry => entry.2 ∉ claimed :=
    List.filter_congr fun entry member => by simp [away entry member]
  rw [without, same, without]

theorem without_split {claimed : List Nat} {front back : List α} {option : α} :
    without claimed (front ++ option :: back).zipIdx =
      without claimed front.zipIdx ++ without claimed [(option, front.length)] ++
        without claimed (back.zipIdx (front.length + 1)) := by
  simp [without, List.zipIdx_append, ← List.filter_append, ← List.map_append]

theorem exists_split {option : α} (found : options[index]? = some option) :
    ∃ front back, options = front ++ option :: back ∧ front.length = index := by
  obtain ⟨inside, own⟩ := List.getElem?_eq_some_iff.1 found
  refine ⟨options.take index, options.drop (index + 1), ?_, by simp; omega⟩
  rw [← own, ← List.drop_eq_getElem_cons inside, List.take_append_drop]

/-- A step takes one option away from the remaining ones, and those before it do not fit. -/
theorem Step.split_remaining (step : Step fit? options state next) :
    ∃ before option after fit, remaining options state = before ++ option :: after ∧
      remaining options next = before ++ after ∧ (∀ earlier ∈ before, fit? earlier state.rest = none) ∧
      fit? option state.rest = some fit ∧ next.elements = state.elements ++ fit.elements ∧ next.rest = fit.rest := by
  obtain @⟨index, option, fit, found, fresh, fits, lowest⟩ := step
  obtain ⟨front, back, rfl, rfl⟩ := exists_split found
  have below : ∀ entry ∈ front.zipIdx, entry.2 ≠ front.length := fun entry member => by
    have bound := List.snd_lt_of_mem_zipIdx member
    omega
  have above : ∀ entry ∈ back.zipIdx (front.length + 1), entry.2 ≠ front.length := fun entry member => by
    have bound := List.le_snd_of_mem_zipIdx member
    omega
  have own : without state.claimed [(option, front.length)] = [option] := by simp [without, fresh]
  have gone : without (state.claimed ++ [front.length]) [(option, front.length)] = [] := by simp [without]
  refine ⟨without state.claimed front.zipIdx, option, without state.claimed (back.zipIdx (front.length + 1)), fit, ?_, ?_,
    ?_, fits, rfl, rfl⟩
  · rw [remaining, without_split, own, List.append_assoc, List.singleton_append]
  · rw [remaining, Progress.claim, without_split, gone, without_concat below, without_concat above, List.append_nil]
  · intro earlier member
    obtain ⟨⟨_, lower⟩, isEntry, rfl⟩ := List.mem_map.1 member
    obtain ⟨isIn, notClaimed⟩ := List.mem_filter.1 isEntry
    have inside := List.snd_lt_of_mem_zipIdx isIn
    have own := List.mem_zipIdx_iff_getElem?.1 isIn
    refine lowest lower (by simpa using inside) (by simpa using notClaimed) _ ?_
    rwa [List.getElem?_append_left (by simpa using inside)]

/-- The steps of a match are its claims. -/
theorem claims_of_steps {final : Progress} (path : Relation.ReflTransGen (Step fit? options) state final)
    (misses : ∀ option ∈ remaining options final, fit? option final.rest = none) :
    ∃ scan, Claims fit? (remaining options state) state.rest scan ∧ final.elements = state.elements ++ scan.elements ∧
      final.rest = scan.rest := by
  induction path using Relation.ReflTransGen.head_induction_on with
  | refl => exact ⟨_, .stop misses, by simp, rfl⟩
  | head step _ ih =>
    obtain ⟨scan, claims, elements, rest⟩ := ih
    obtain ⟨before, option, after, fit, own, others, earlier, fits, more, left⟩ := step.split_remaining
    rw [others, left] at claims
    rw [own]
    exact ⟨_, .claim earlier fits claims, by rw [elements, more, List.append_assoc], rest⟩

theorem Done.misses_remaining (unfit : ∀ option, fit? option [] = none) (done : Done fit? options state) :
    ∀ option ∈ remaining options state, fit? option state.rest = none := by
  intro option member
  obtain ⟨⟨_, index⟩, isEntry, rfl⟩ := List.mem_map.1 member
  obtain ⟨isIn, fresh⟩ := List.mem_filter.1 isEntry
  have found := List.mem_zipIdx_iff_getElem?.1 isIn
  obtain empty | misses := done
  · rw [empty, unfit]
  · exact misses index (List.getElem?_eq_some_iff.1 found).1 (by simpa using fresh) _ found

/-- A match that is done has the elements and the rest of the greedy match. -/
theorem Done.greedy (unfit : ∀ option, fit? option [] = none) {final : Progress}
    (path : Relation.ReflTransGen (Step fit? options) (.start tokens) final) (done : Done fit? options final) :
    final.elements = (greedy fit? options tokens).elements ∧ final.rest = (greedy fit? options tokens).rest := by
  obtain ⟨scan, claims, elements, rest⟩ := claims_of_steps path (done.misses_remaining unfit)
  have whole : remaining options (.start tokens) = options := by simp [remaining, without, Progress.start]
  rw [whole] at claims
  obtain rfl := claims_iff.1 claims
  exact ⟨by simpa [Progress.start] using elements, rest⟩

/-- Something is recognized as soon as an option is claimed, if each option recognizes something. -/
theorem elements_eq_nil_iff (fruitful : ∀ option tokens fit, fit? option tokens = some fit → fit.elements ≠ [])
    {final : Progress} (path : Relation.ReflTransGen (Step fit? options) (.start tokens) final) :
    final.elements = [] ↔ final.claimed = [] := by
  induction path with
  | refl => simp [Progress.start]
  | tail _ step ih =>
    obtain ⟨found, fresh, fits, lowest⟩ := step
    simp [Progress.claim, fruitful _ _ _ fits]

/-- Options that are recognized as others are claimed as those are. -/
theorem Claims.map {β : Type} (f : α → β) (fit? : β → Recognizer) {scan : Scan α}
    (claims : Claims (fun option => fit? (f option)) options tokens scan) :
    Claims fit? (options.map f) tokens ⟨scan.elements, scan.rest, scan.unclaimed.map f⟩ := by
  induction claims with
  | stop misses => exact .stop (by simpa using misses)
  | claim earlier fits later ih =>
    rw [List.map_append] at ih
    rw [List.map_append, List.map_cons]
    exact .claim (by simpa using earlier) fits ih

end Steps

/-! ## Flags -/

namespace Flag

/-- The options of a protocol are matched in its scope just as those of a rule are. -/
theorem fit?_protocol_eq_some_iff {p : Protocol} {options : List Flag} {tokens : List Token} {fit : Fit} :
    (protocol p options).fit? tokens = some fit ↔
      ∃ flag name rest, tokens = flag :: name :: rest ∧ Protocol.flag.accepts flag.text = true ∧
        p.isNamed name.text = true ∧
        let inScope := fun token : Token => !Protocol.flag.accepts token.text
        let scan := scan options (rest.takeWhile inScope)
        fit = ⟨.ofTyped (.condition (.protocol p) none) [flag.text, name.text] :: scan.elements,
          scan.rest ++ rest.dropWhile inScope⟩ := by
  have same (tokens : List Token) := claims_iff.1 ((claims_greedy fit? options tokens).map fit? id)
  rw [fit?, recognizers_eq_map, Clause.protocolFit?_eq_some_iff]
  simp only [← same, scan]

theorem fit?_eq_none_iff (options : List Flag) (tokens : List Token) :
    (scan options tokens).fit? = none ↔ ∀ option ∈ options, option.fit? tokens = none := by
  constructor
  · intro nothing
    have empty : (scan options tokens).elements = [] := by simpa [Scan.fit?] using nothing
    have claims : Claims fit? options tokens (scan options tokens) := claims_greedy fit? options tokens
    generalize scan options tokens = found at empty claims
    cases claims with
    | stop misses => exact misses
    | claim earlier fits later => exact absurd (List.append_eq_nil_iff.1 empty).1 (elements_ne_nil_of_fit? fits)
  · intro misses
    rw [scan, greedy_of_misses misses]
    rfl

/-- The match of flags, in whatever order and however often they stand in the list: nothing is recognized exactly if no
    flag fits, and otherwise the result is that of the only state in which steps from the start end, which is where the
    loop ends. -/
theorem scan_steps (options : List Flag) (tokens : List Token) :
    ((scan options tokens).fit? = none ↔ ∀ option ∈ options, option.fit? tokens = none) ∧
      ∃ final, sweep fit? options 0 (.start tokens) = final ∧
        (∀ state, Relation.ReflTransGen (Step fit? options) (.start tokens) state ∧ Done fit? options state ↔ state = final) ∧
        final.claimed.Nodup ∧ (∀ index ∈ final.claimed, index < options.length) ∧
        (scan options tokens).fit? = if final.claimed = [] then none else some ⟨final.elements, final.rest⟩ := by
  have unfit (option : Flag) : option.fit? [] = none := fit?_nil
  obtain ⟨path, done⟩ := @sweep_spec Flag fit? options 0 (.start tokens)
    fun lower none => absurd none (Nat.not_lt_zero lower)
  obtain ⟨elements, rest⟩ := done.greedy unfit path
  obtain ⟨nodup, inside⟩ := nodup_of_steps path
  refine ⟨fit?_eq_none_iff options tokens, _, rfl, fun state => ⟨?_, ?_⟩, nodup, inside, ?_⟩
  · rintro ⟨otherPath, otherDone⟩
    exact otherDone.unique unfit otherPath path done
  · rintro rfl
    exact ⟨path, done⟩
  · have nothing := elements_eq_nil_iff (fun _ _ _ => elements_ne_nil_of_fit?) path
    simp only [← nothing, elements, rest]
    rfl

end Flag

end PacketFilter.Grammar
