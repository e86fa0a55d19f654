import PacketFilter.Proofs.Grammar.Stock
import PacketFilter.Rule

/-!
# Selection of a signature

Which of its signatures a grammar counts for a text: the first one that matches completely, or else the first one of
those that recover most, and a strict match has the former only. One pass over the signatures, which ends at a complete
match and keeps the best one until then, finds it. Main statements: `build_eq_ok_iff`, which forms are a grammar,
`select_eq`, the pass, and `Rule.parse?_selects`.
-/

namespace PacketFilter

namespace Grammar

/-! ## Grammars that are built -/

theorem buildSignature_eq_ok_iff {index : Nat} {components : List Component} {signature : Signature} :
    buildSignature index components = .ok signature ↔ signature.components = components := by
  constructor
  · intro built
    unfold buildSignature at built
    split at built
    · cases built
    · split at built
      · cases built
        rfl
      · cases built
  · rintro rfl
    rw [buildSignature, dif_neg signature.nonempty, dif_pos signature.flags_le_one]

theorem buildSignatures_eq_ok_iff {index : Nat} {forms : List (List Component)} {signatures : List Signature} :
    buildSignatures index forms = .ok signatures ↔ signatures.map Signature.components = forms := by
  induction forms generalizing index signatures with
  | nil =>
    rw [buildSignatures, List.map_eq_nil_iff, Except.ok.injEq]
    exact eq_comm
  | cons components forms ih =>
    constructor
    · intro built
      rw [buildSignatures] at built
      cases own : buildSignature index components with
      | error fault => simp [own, bind, Except.bind] at built
      | ok signature =>
        cases others : buildSignatures (index + 1) forms with
        | error fault => simp [own, others, bind, Except.bind] at built
        | ok later =>
          obtain rfl : signature :: later = signatures := by
            simpa [own, others, bind, Except.bind, pure, Except.pure] using built
          rw [List.map_cons, buildSignature_eq_ok_iff.1 own, ih.1 others]
    · intro same
      obtain ⟨signature, later, rfl, own, others⟩ := List.map_eq_cons_iff.1 same
      rw [buildSignatures, buildSignature_eq_ok_iff.2 own, ih.2 others]
      rfl

/-- Forms make a grammar exactly if they are the components of its signatures, in their order. -/
theorem build_eq_ok_iff {forms : List (List Component)} {grammar : Grammar} :
    build forms = .ok grammar ↔ grammar.signatures.map Signature.components = forms := by
  constructor
  · intro built
    rw [build] at built
    cases checked : buildSignatures 0 forms with
    | error fault => simp [checked, bind, Except.bind] at built
    | ok signatures =>
      cases signatures with
      | nil => simp [checked, bind, Except.bind] at built
      | cons first others =>
        obtain rfl : Grammar.mk first others = grammar := by simpa [checked, bind, Except.bind] using built
        exact buildSignatures_eq_ok_iff.1 checked
  · intro same
    rw [build, buildSignatures_eq_ok_iff.2 same]
    rfl

/-! ## The attempt that counts -/

namespace Attempt

/-- An attempt is the first complete one of attempts in a row. -/
def IsFirstComplete (attempts : List Attempt) (chosen : Attempt) : Prop :=
  ∃ before after, attempts = before ++ chosen :: after ∧ chosen.IsComplete ∧ ∀ earlier ∈ before, ¬ earlier.IsComplete

/-- An attempt recovers most among attempts in a row, and those before it recover less. -/
def IsFirstLongest (attempts : List Attempt) (chosen : Attempt) : Prop :=
  ∃ before after, attempts = before ++ chosen :: after ∧ (∀ earlier ∈ before, earlier.recovered < chosen.recovered) ∧
    ∀ later ∈ after, later.recovered ≤ chosen.recovered

/-- One pass over attempts: a complete one ends it, and until then the best one so far is kept if `bestEffort` asks
    for it. -/
def select (bestEffort : Bool) (best? : Option Attempt) : List Attempt → Option Attempt
  | [] => best?
  | attempt :: attempts =>
    if attempt.IsComplete then some attempt
    else if bestEffort && best?.all fun best => best.recovered < attempt.recovered then
      select bestEffort (some attempt) attempts
    else select bestEffort best? attempts

theorem isFirstComplete_iff {attempts : List Attempt} {chosen : Attempt} :
    IsFirstComplete attempts chosen ↔ attempts.find? (fun attempt => attempt.IsComplete) = some chosen := by
  simp only [IsFirstComplete, List.find?_eq_some_iff_append, decide_eq_true_eq, Bool.not_eq_true', decide_eq_false_iff_not]
  constructor
  · rintro ⟨before, after, split, complete, earlier⟩
    exact ⟨complete, before, after, split, earlier⟩
  · rintro ⟨complete, before, after, split, earlier⟩
    exact ⟨before, after, split, complete, earlier⟩

/-- An attempt that a better one beats may stand in front. -/
theorem IsFirstLongest.cons {best attempt chosen : Attempt} {attempts : List Attempt}
    (longest : IsFirstLongest (attempt :: attempts) chosen) (better : best.recovered < attempt.recovered) :
    IsFirstLongest (best :: attempt :: attempts) chosen := by
  obtain ⟨before, after, split, less, most⟩ := longest
  have beaten : best.recovered < chosen.recovered := by
    cases before with
    | nil =>
      obtain ⟨rfl, -⟩ := List.cons.inj split
      exact better
    | cons first before =>
      obtain ⟨rfl, -⟩ := List.cons.inj split
      exact Nat.lt_trans better (less attempt (by simp))
  exact ⟨best :: before, after, by rw [split, List.cons_append], List.forall_mem_cons.2 ⟨beaten, less⟩, most⟩

/-- An attempt that is no better than the first one may stand behind it. -/
theorem IsFirstLongest.insert {best attempt chosen : Attempt} {attempts : List Attempt}
    (longest : IsFirstLongest (best :: attempts) chosen) (worse : attempt.recovered ≤ best.recovered) :
    IsFirstLongest (best :: attempt :: attempts) chosen := by
  obtain ⟨before, after, split, less, most⟩ := longest
  cases before with
  | nil =>
    obtain ⟨rfl, rfl⟩ := List.cons.inj split
    exact ⟨[], attempt :: attempts, rfl, by simp, List.forall_mem_cons.2 ⟨worse, most⟩⟩
  | cons first before =>
    obtain ⟨rfl, rfl⟩ := List.cons.inj split
    obtain ⟨beaten, others⟩ := List.forall_mem_cons.1 less
    have beatenToo : attempt.recovered < chosen.recovered := Nat.lt_of_le_of_lt worse beaten
    exact ⟨best :: attempt :: before, after, rfl, by simpa using ⟨beaten, beatenToo, others⟩, most⟩

theorem isFirstLongest_longest (best : Attempt) (attempts : List Attempt) :
    IsFirstLongest (best :: attempts) (best.longest attempts) := by
  induction attempts generalizing best with
  | nil => exact ⟨[], [], rfl, by simp, by simp⟩
  | cons attempt attempts ih =>
    rw [longest]
    by_cases better : best.recovered < attempt.recovered
    · rw [if_pos better]
      exact (ih attempt).cons better
    · rw [if_neg better]
      exact (ih best).insert (Nat.not_lt.1 better)

/-! ## The pass -/

theorem select_strict (attempts : List Attempt) :
    select false none attempts = attempts.find? fun attempt => attempt.IsComplete := by
  induction attempts with
  | nil => rfl
  | cons attempt attempts ih => by_cases complete : attempt.IsComplete <;> simp [select, complete, ih]

/-- From a best one on, the pass finds the first complete attempt, or else the longest. -/
theorem select_some (best : Attempt) (attempts : List Attempt) :
    select true (some best) attempts =
      ((attempts.find? fun attempt => attempt.IsComplete).or (some (best.longest attempts))) := by
  induction attempts generalizing best with
  | nil => rfl
  | cons attempt attempts ih =>
    by_cases complete : attempt.IsComplete
    · simp [select, complete]
    · by_cases better : best.recovered < attempt.recovered <;> simp [select, longest, complete, better, ih]

end Attempt

theorem choose_eq (grammar : Grammar) (context : Context) (tokens : List Token) :
    some (grammar.choose context tokens) =
      ((grammar.attempts context tokens).find? fun attempt => attempt.IsComplete).or
        (some ((attempt context tokens grammar.first).longest (grammar.others.map (attempt context tokens)))) := by
  rw [choose]
  split
  · next found => rw [found, Option.some_or]
  · next missed => rw [missed, Option.none_or]

/-- The pass over the attempts of a grammar finds the one that counts; without `bestEffort` only if it is complete. -/
theorem select_eq (grammar : Grammar) (bestEffort : Bool) (context : Context) (tokens : List Token) :
    let chosen := grammar.choose context tokens
    Attempt.select bestEffort none (grammar.attempts context tokens) =
      if bestEffort ∨ chosen.IsComplete then some chosen else none := by
  intro chosen
  have named : some chosen = _ := choose_eq grammar context tokens
  cases bestEffort with
  | true =>
    have spread : grammar.attempts context tokens =
      attempt context tokens grammar.first :: grammar.others.map (attempt context tokens) := rfl
    rw [if_pos (.inl rfl), named, spread]
    by_cases complete : (attempt context tokens grammar.first).IsComplete
    · simp [Attempt.select, complete]
    · simp [Attempt.select, complete, Attempt.select_some]
  | false =>
    rw [Attempt.select_strict]
    cases found : (grammar.attempts context tokens).find? fun attempt => attempt.IsComplete with
    | some attempt =>
      obtain rfl : chosen = attempt := by simpa [found] using named
      have complete : chosen.IsComplete := by simpa using List.find?_some found
      rw [if_pos (.inr complete)]
    | none =>
      have incomplete : ¬ chosen.IsComplete := by simpa using List.find?_eq_none.1 found _ (choose_mem grammar context tokens)
      rw [if_neg (by simp [incomplete])]

end Grammar

namespace Rule

open Grammar

/-- A rule's text is matched by the first signature that matches it completely, with no token left and no suggestions,
    and without one by the first of the signatures that recover most, with what that one leaves and suggests; a strict
    match has the former only. One pass over the signatures finds either. -/
theorem parse?_selects (rule : Rule) :
    let attempts := rule.grammar.attempts rule.context (Token.scan rule.raw)
    ∃ chosen outcome, rule.parse? true = some outcome ∧
      ((∃ attempt ∈ attempts, attempt.IsComplete) →
        Attempt.IsFirstComplete attempts chosen ∧ rule.parse? false = some outcome ∧
          outcome = ⟨chosen.walk.elements, [], [], chosen.walk.context, true⟩) ∧
      ((∀ attempt ∈ attempts, ¬ attempt.IsComplete) →
        Attempt.IsFirstLongest attempts chosen ∧ rule.parse? false = none ∧
          outcome = ⟨chosen.walk.elements, chosen.walk.rest, chosen.signature.suggestions chosen.walk,
            chosen.walk.context, false⟩) ∧
      ∀ bestEffort, rule.parse? bestEffort = (Attempt.select bestEffort none attempts).map Outcome.ofAttempt := by
  intro attempts
  let chosen := rule.grammar.choose rule.context (Token.scan rule.raw)
  have named : some chosen = _ := choose_eq rule.grammar rule.context (Token.scan rule.raw)
  have matched (bestEffort : Bool) : rule.parse? bestEffort =
      if bestEffort ∨ chosen.IsComplete then some (.ofAttempt chosen) else none := by
    simp [parse?, Grammar.parse?, parse, Outcome.ofAttempt, chosen]
  refine ⟨chosen, .ofAttempt chosen, by simp [matched], ?_, ?_, ?_⟩
  · rintro ⟨attempt, member, complete⟩
    have exists_first : (attempts.find? fun attempt => attempt.IsComplete).isSome :=
      List.find?_isSome.2 ⟨attempt, member, decide_eq_true complete⟩
    obtain ⟨first, found⟩ := Option.isSome_iff_exists.1 exists_first
    obtain rfl : chosen = first := by simpa [attempts, found] using named
    have isFirst := Attempt.isFirstComplete_iff.2 found
    have whole : chosen.IsComplete := by simpa using List.find?_some found
    exact ⟨isFirst, by simp [matched, whole], by simp [Outcome.ofAttempt, whole, whole.2]⟩
  · intro none
    have missed : attempts.find? (fun attempt => attempt.IsComplete) = Option.none :=
      List.find?_eq_none.2 fun attempt member => by simpa using none attempt member
    have longest : chosen = (attempt rule.context (Token.scan rule.raw) rule.grammar.first).longest
        (rule.grammar.others.map (attempt rule.context (Token.scan rule.raw))) := by
      simpa [attempts, missed] using named
    have incomplete : ¬ chosen.IsComplete := none chosen (choose_mem _ _ _)
    exact ⟨longest ▸ Attempt.isFirstLongest_longest _ _, by simp [matched, incomplete],
      by simp [Outcome.ofAttempt, incomplete]⟩
  · intro bestEffort
    rw [select_eq, matched]
    split <;> rfl

end Rule

end PacketFilter
