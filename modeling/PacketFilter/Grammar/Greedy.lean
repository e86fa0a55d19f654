import PacketFilter.Element
import PacketFilter.Text.Token

/-!
# Greedy matching of options

A list of options is matched against tokens by claiming, again and again, the first option not yet
claimed that fits what is left. Main content: `greedy`, and `Scan`, its result. Main statement:
`firstFit?_eq_some_iff`.
-/

namespace PacketFilter.Grammar

/-- A successful match: the elements recognized and the tokens left. -/
structure Fit where
  elements : List Element
  rest : List Token
  deriving DecidableEq

/-- A function that recognizes tokens, or does not fit them. -/
abbrev Recognizer := List Token → Option Fit

/-- The result of a greedy match: the elements recognized, the tokens left and the options not claimed. -/
structure Scan (α : Type) where
  elements : List Element
  rest : List Token
  unclaimed : List α

variable {α : Type}

/-- The match of the first option that fits, with the other options. -/
def firstFit? (fit? : α → Recognizer) : List α → List Token → Option (Fit × List α)
  | [], _ => none
  | option :: options, tokens =>
    match fit? option tokens with
    | some fit => some (fit, options)
    | none => (firstFit? fit? options tokens).map fun (fit, others) => (fit, option :: others)

/-- Claims at most `limit` options. -/
def greedyUpTo (fit? : α → Recognizer) : Nat → List α → List Token → Scan α
  | 0, options, tokens => ⟨[], tokens, options⟩
  | limit + 1, options, tokens =>
    match firstFit? fit? options tokens with
    | none => ⟨[], tokens, options⟩
    | some (fit, others) =>
      let scan := greedyUpTo fit? limit others fit.rest
      ⟨fit.elements ++ scan.elements, scan.rest, scan.unclaimed⟩

/-- Claims options until none of those left fits. -/
def greedy (fit? : α → Recognizer) (options : List α) (tokens : List Token) : Scan α :=
  greedyUpTo fit? options.length options tokens

/-- The match of a scan, if it recognized anything. -/
def Scan.fit? (scan : Scan α) : Option Fit :=
  if scan.elements = [] then none else some ⟨scan.elements, scan.rest⟩

theorem firstFit?_eq_none_iff {fit? : α → Recognizer} {options : List α} {tokens : List Token} :
    firstFit? fit? options tokens = none ↔ ∀ option ∈ options, fit? option tokens = none := by
  induction options with
  | nil => simp [firstFit?]
  | cons option options ih => cases found : fit? option tokens <;> simp [firstFit?, found, ih]

/-- The first option that fits is claimed, and the others keep their order. -/
theorem firstFit?_eq_some_iff {fit? : α → Recognizer} {options others : List α} {tokens : List Token} {fit : Fit} :
    firstFit? fit? options tokens = some (fit, others) ↔
      ∃ before option after, options = before ++ option :: after ∧ others = before ++ after ∧
        (∀ earlier ∈ before, fit? earlier tokens = none) ∧ fit? option tokens = some fit := by
  induction options generalizing others with
  | nil => simp [firstFit?]
  | cons head tail ih =>
    cases found : fit? head tokens with
    | some claimed =>
      simp only [firstFit?, found, Option.some.injEq, Prod.mk.injEq]
      constructor
      · rintro ⟨rfl, rfl⟩
        exact ⟨[], head, tail, rfl, rfl, by simp, found⟩
      · rintro ⟨before, option, after, split, rfl, misses, fits⟩
        cases before with
        | nil =>
          obtain ⟨rfl, rfl⟩ := List.cons.inj split
          exact ⟨Option.some.inj (found.symm.trans fits), rfl⟩
        | cons earlier before =>
          obtain ⟨rfl, -⟩ := List.cons.inj split
          simp [misses head (by simp)] at found
    | none =>
      simp only [firstFit?, found, Option.map_eq_some_iff, Prod.mk.injEq, Prod.exists]
      constructor
      · rintro ⟨claimed, rest, later, rfl, rfl⟩
        obtain ⟨before, option, after, rfl, rfl, misses, fits⟩ := ih.1 later
        exact ⟨head :: before, option, after, rfl, rfl, by simpa [found] using misses, fits⟩
      · rintro ⟨before, option, after, split, rfl, misses, fits⟩
        cases before with
        | nil =>
          obtain ⟨rfl, rfl⟩ := List.cons.inj split
          simp [found] at fits
        | cons earlier before =>
          obtain ⟨rfl, rfl⟩ := List.cons.inj split
          exact ⟨fit, before ++ after, ih.2 ⟨before, option, after, rfl, rfl, fun e m => misses e (by simp [m]), fits⟩,
            rfl, rfl⟩

end PacketFilter.Grammar
