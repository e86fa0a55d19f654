import PacketFilter.Proofs.Rule.Context
import PacketFilter.Proofs.Rule.Suffix

/-!
# Matching a rule again

A rule keeps the table and the chain that its text resolved, and a later match starts from these and no longer from what
was preset. Every component that matched matches again, because the table it needed is known by then, and the one that
failed fails again, because nothing behind it resolved anything. Main statements: `walk_resolved`, a walk from the
context that it has resolved is the same walk, `parse_stock_resolved` and `Rule.parse?_new`.
-/

namespace PacketFilter

namespace Context

/-- Parts resolve the context that they have resolved to itself. -/
theorem foldl_resolve_foldl (context : Context) (parts : List Part) :
    parts.foldl resolve (parts.foldl resolve context) = parts.foldl resolve context := by
  refine eq_of_fields ?_ ?_
  · rw [table?_foldl, table?_foldl, Option.or_assoc, Option.or_self]
  · rw [chain?_foldl, chain?_foldl, ← Option.or_assoc, Option.or_self]

end Context

namespace Grammar

/-! ## Walks from another context -/

/-- A component that matches also matches, and in the same way, from every context that has the table it knew. -/
theorem Component.fit?_of_table? {component : Component} {context other : Context} {tokens : List Token} {found : Match}
    (fits : component.fit? context tokens = some found) (knows : ∀ table ∈ context.table?, table ∈ other.table?) :
    component.fit? other tokens =
      some { found with context := (parts found.elements).foldl Context.resolve other } := by
  cases component with
  | flags options =>
    -- Flags do not read the context, and resolve nothing of it.
    simp only [fit?, Option.map_eq_some_iff] at fits
    obtain ⟨fit, scanned, rfl⟩ := fits
    have again : (flags options).fit? other tokens = some ⟨fit.elements, fit.rest, other⟩ := by
      rw [fit?, scanned, Option.map_some]
    rw [again, ← (resolves again).1]
  | _ =>
    obtain ⟨part, typed, rest, rfl, offers, spelled, rfl⟩ := fit?_sound rfl fits
    exact fit?_typed (offers.of_table? knows) spelled rest

/-- A component that fails also fails in every other context with the same table. -/
theorem Component.fit?_eq_none_of_table? {component : Component} {context other : Context} {tokens : List Token}
    (fails : component.fit? context tokens = none) (same : other.table? = context.table?) :
    component.fit? other tokens = none := by
  rw [Option.eq_none_iff_forall_ne_some]
  intro found fits
  have matched := fit?_of_table? fits fun table known => same ▸ known
  simp [fails] at matched

/-- A walk goes the same way from every context that has the table in which it ends. -/
theorem walk_of_table? {components : List Component} {context other : Context} {tokens : List Token}
    (same : other.table? = (walk components context tokens).context.table?) :
    let found := walk components context tokens
    walk components other tokens = { found with context := (parts found.elements).foldl Context.resolve other } := by
  induction components generalizing context other tokens with
  | nil => rfl
  | cons component components ih =>
    cases fits : component.fit? context tokens with
    | none =>
      rw [walk, fits] at same ⊢
      rw [walk, Component.fit?_eq_none_of_table? fits same]
      rfl
    | some found =>
      rw [walk, fits] at same
      let next := walk components found.context found.rest
      have own : found.context = (parts found.elements).foldl Context.resolve context := (Component.resolves fits).1
      have later : next.context = (parts next.elements).foldl Context.resolve found.context := (walk_resolves _ _ _).1
      have final : other.table? =
          ((parts found.elements ++ parts next.elements).foldl Context.resolve context).table? := by
        rw [List.foldl_append, ← own, ← later]
        exact same
      -- A table that is known stays, so `other` has the one that this component knew, and still has it behind it.
      have knows : ∀ table ∈ context.table?, table ∈ other.table? := fun table known =>
        final.trans (Context.table?_foldl_resolve known _)
      have kept := Context.table?_foldl_of_final context (parts found.elements) (parts next.elements) final
      have rest : walk components ((parts found.elements).foldl Context.resolve other) found.rest =
          { next with context :=
              (parts next.elements).foldl Context.resolve ((parts found.elements).foldl Context.resolve other) } :=
        ih (kept.trans same)
      have split : parts (found.elements ++ next.elements) = parts found.elements ++ parts next.elements :=
        List.map_append
      simp only [walk, fits, Component.fit?_of_table? fits knows, rest]
      rw [split, List.foldl_append]

/-- A walk from the context that it has resolved is the same walk. -/
theorem walk_resolved (components : List Component) (context : Context) (tokens : List Token) :
    let found := walk components context tokens
    walk components found.context tokens = found := by
  intro found
  have resolved : found.context = (parts found.elements).foldl Context.resolve context := (walk_resolves _ _ _).1
  have again : walk components found.context tokens =
      { found with context := (parts found.elements).foldl Context.resolve found.context } := walk_of_table? rfl
  rw [again, resolved, Context.foldl_resolve_foldl, ← resolved]

/-! ## The choice from another context -/

/-- Two contexts from which every signature makes the same of some tokens have the same outcome. -/
theorem parse_congr {grammar : Grammar} {context other : Context} {tokens : List Token}
    (same : ∀ signature ∈ grammar.signatures, signature.walk other tokens = signature.walk context tokens) :
    grammar.parse other tokens = grammar.parse context tokens := by
  have attempts : grammar.attempts other tokens = grammar.attempts context tokens :=
    List.map_congr_left fun signature member => congrArg (Attempt.mk signature) (same signature member)
  obtain ⟨first, others⟩ := List.cons.inj attempts
  rw [parse, choose, attempts, first, others]
  rfl

/-- Where every signature resolves the same context, a match from that context has the same outcome. -/
theorem parse_resolved {grammar : Grammar} {context : Context} {tokens : List Token}
    (agree : ∀ signature ∈ grammar.signatures,
      (signature.walk context tokens).context = (grammar.parse context tokens).context) :
    grammar.parse (grammar.parse context tokens).context tokens = grammar.parse context tokens := by
  refine parse_congr fun signature member => ?_
  rw [← agree signature member]
  exact walk_resolved signature.components context tokens

/-- The signatures of the stock grammar differ in the flags, which resolve nothing. -/
theorem context_of_stock (context : Context) (tokens : List Token) {signature : Signature}
    (member : signature ∈ stock.signatures) :
    (signature.walk context tokens).context = (stock.parse context tokens).context := by
  rw [(parse_stock context tokens).1]
  rcases List.mem_pair.1 member with rfl | rfl
  · show (walk (header ++ [.flags stockFlags]) context tokens).context = (walk header context tokens).context
    rw [walk_stock]
    split <;> rfl
  · rfl

theorem parse_stock_resolved (context : Context) (tokens : List Token) :
    stock.parse (stock.parse context tokens).context tokens = stock.parse context tokens :=
  parse_resolved fun _ member => context_of_stock context tokens member

end Grammar

namespace Rule

open Grammar

/-- A rule that was read from a text that is not blank is matched again as it was: from the table and the chain that it
    has resolved, its text has the same outcome as from what was preset. -/
theorem parse?_new (preset : Context) (raw : String) (written : ¬ Text.IsBlank raw) :
    let rule := new stock preset raw
    ∃ outcome, rule.parse? true = some outcome ∧ outcome = stock.parse preset.settled (Token.scan raw) ∧
      outcome.elements = rule.elements ∧ outcome.suggestions = rule.possible ∧ outcome.context = rule.context ∧
      (rule.unrecognizedSuffix raw = "" ↔ outcome.leftover = []) := by
  intro rule
  have empty := unrecognizedSuffix_eq_empty_iff rule raw
  have read : rule = ⟨raw, stock, (stock.parse preset.settled (Token.scan raw)).context,
      (stock.parse preset.settled (Token.scan raw)).elements,
      (stock.parse preset.settled (Token.scan raw)).suggestions⟩ := if_neg written
  have again := parse_stock_resolved preset.settled (Token.scan raw)
  generalize stock.parse preset.settled (Token.scan raw) = first at read again ⊢
  rw [read] at empty ⊢
  rw [again] at empty
  exact ⟨first, congrArg some again, rfl, rfl, rfl, rfl, empty⟩

/-- The text resolves a table that does not hold the preset chain, and stops in front of that chain both times. -/
theorem parse?_new_of_preset_chain :
    let raw := "iptables -t FILTER -A PREROUTING"
    let rule := new stock ⟨none, some .prerouting⟩ raw
    ¬ Text.IsBlank raw ∧ rule.context = ⟨some .filter, some .prerouting⟩ ∧ "FORWARD" ∈ rule.possible ∧
      rule.unrecognizedSuffix raw = "PREROUTING" ∧
      ∃ outcome, rule.parse? true = some outcome ∧
        outcome = stock.parse (Context.settled ⟨none, some .prerouting⟩) (Token.scan raw) ∧
        outcome.elements = rule.elements ∧ outcome.suggestions = rule.possible ∧ outcome.context = rule.context ∧
        (rule.unrecognizedSuffix raw = "" ↔ outcome.leftover = []) := by
  intro raw rule
  exact ⟨by decide, by decide +kernel, by decide +kernel, by decide +kernel,
    parse?_new ⟨none, some .prerouting⟩ raw (by decide)⟩

end Rule

end PacketFilter
