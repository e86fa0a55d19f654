import PacketFilter.Proofs.Rule.Editing

/-!
# Table and chain of a rule

The table and the chain of a rule are preset or named by its text. A chain that is named is one of the table, and a
preset chain is dropped if it is not one of the preset table, but a preset chain is kept when the text names a table
that does not hold it. Main statements: `clashes_foldl_iff` and `Rule.clashes_iff`.
-/

namespace PacketFilter

/-! ## Parts that resolve a context -/

namespace Context

/-- Every chain that parts name is held by the table that is known in front of it. -/
def Admits (context : Context) : List Part → Prop
  | [] => True
  | part :: parts =>
    (∀ chain ∈ part.chain?, ∃ table ∈ context.table?, table.Holds chain) ∧ (context.resolve part).Admits parts

/-- Parts leave a known chain alone and name a table that does not hold it. -/
def Strays (context : Context) (parts : List Part) : Prop :=
  parts.findSome? Part.chain? = none ∧ ∃ chain ∈ context.chain?,
    ∃ table ∈ context.table?.or (parts.findSome? Part.table?), ¬ table.Holds chain

theorem admits_append {context : Context} {front back : List Part} :
    context.Admits (front ++ back) ↔ context.Admits front ∧ (front.foldl resolve context).Admits back := by
  induction front generalizing context with
  | nil => simp [Admits]
  | cons part front ih => simp [Admits, ih, and_assoc]

/-- Parts that a context admits lead to a clash exactly if they stray. -/
theorem clashes_foldl_iff {context : Context} {parts : List Part} (admits : context.Admits parts) :
    (parts.foldl resolve context).Clashes ↔ context.Strays parts := by
  induction parts generalizing context with
  | nil =>
    simp only [List.foldl_nil, Clashes, Strays, List.findSome?_nil, Option.or_none, true_and]
    constructor
    · rintro ⟨table, known, chain, preset, excluded⟩
      exact ⟨chain, preset, table, known, excluded⟩
    · rintro ⟨chain, preset, table, known, excluded⟩
      exact ⟨table, known, chain, preset, excluded⟩
  | cons part parts ih =>
    obtain ⟨named, later⟩ := admits
    rw [List.foldl_cons, ih later]
    cases part with
    | table table =>
      simp only [Strays, resolve, Grammar.Component.named, List.findSome?_cons, Part.chain?, Part.table?,
        Option.or_assoc, Option.some_or]
    | chain chain =>
      -- A named chain is held by the table that is known, so it clashes neither now nor later.
      obtain ⟨table, known, holds⟩ := named chain rfl
      have known : context.table? = some table := known
      constructor
      · rintro ⟨-, other, ⟨⟩, found, first, excluded⟩
        simp only [resolve, known, Option.some_or, Option.mem_def, Option.some.injEq] at first
        exact absurd (first ▸ holds) excluded
      · rintro ⟨unnamed, -⟩
        simp [Part.chain?] at unnamed
    | _ => simp only [Strays, resolve, List.findSome?_cons, Part.chain?, Part.table?]

theorem foldl_resolve_of_isBehind {parts : List Part} (behind : ∀ part ∈ parts, part.IsBehind) (context : Context) :
    parts.foldl resolve context = context ∧ context.Admits parts := by
  induction parts with
  | nil => exact ⟨rfl, trivial⟩
  | cons part parts ih =>
    obtain ⟨own, others⟩ := List.forall_mem_cons.1 behind
    cases part with
    | condition | action => exact ⟨(ih others).1, by simp [Part.chain?], (ih others).2⟩
    | _ => exact own.elim

end Context

/-! ## Matching -/

namespace Grammar

theorem behind_of_claims {α : Type} {fit? : α → Recognizer} {options : List α} {tokens : List Token} {scan : Scan α}
    (claims : Claims fit? options tokens scan)
    (each : ∀ option ∈ options, ∀ tokens fit, fit? option tokens = some fit → ∀ part ∈ parts fit.elements, part.IsBehind) :
    ∀ part ∈ parts scan.elements, part.IsBehind := by
  refine @Claims.compose _ (fun elements _ _ => ∀ part ∈ parts elements, part.IsBehind) _ _ _ _ claims ?_ ?_ each
  · simp [parts]
  · intro first later _ _ _ own others
    simpa [parts] using List.forall_mem_append.2 ⟨own, others⟩

/-- A flag recognizes conditions and actions only. -/
theorem Flag.behind_of_fit? (flag : Flag) {tokens : List Token} {fit : Fit} (fits : flag.fit? tokens = some fit) :
    ∀ part ∈ parts fit.elements, part.IsBehind := by
  induction flag using Flag.induction generalizing tokens fit with
  | protocol p options ih =>
    rw [Flag.fit?, Flag.recognizers_eq_map] at fits
    obtain ⟨flag, name, rest, rfl, -, -, rfl⟩ := Clause.protocolFit?_eq_some_iff.1 fits
    refine List.forall_mem_cons.2 ⟨trivial, ?_⟩
    refine behind_of_claims (claims_greedy id (options.map Flag.fit?) _) fun recognizer member tokens fit fits => ?_
    obtain ⟨option, isOption, rfl⟩ := List.mem_map.1 member
    exact ih option isOption fits
  | port side p =>
    obtain ⟨front, word, value, back, port, -, -, -, -, rfl⟩ := portFit?_eq_some_iff.1 fits
    simp [parts, Part.IsBehind]
  | address | interface | state =>
    obtain ⟨word, value, rest, -, -, -, rfl⟩ := Clause.valueFit?_eq_some_iff.1 fits
    simp [parts, Part.IsBehind]
  | jump =>
    obtain ⟨a, target?, -, -, own, -⟩ := Clause.jumpFit?_sound fits
    simp [own, Part.IsBehind]

theorem Component.resolves {component : Component} {context : Context} {tokens : List Token} {found : Match}
    (fits : component.fit? context tokens = some found) :
    found.context = (parts found.elements).foldl Context.resolve context ∧ context.Admits (parts found.elements) := by
  cases fixed : component.isFlags with
  | false =>
    obtain ⟨part, typed, rest, rfl, offers, -, rfl⟩ := fit?_sound fixed fits
    refine ⟨rfl, fun chain named => ?_, trivial⟩
    cases component <;> cases part <;> first | exact offers.elim | cases named
    exact offers
  | true =>
    cases component <;> try cases fixed
    simp only [fit?, Scan.fit?, Option.map_eq_some_iff, Option.ite_none_left_eq_some, Option.some.injEq] at fits
    obtain ⟨fit, ⟨-, rfl⟩, rfl⟩ := fits
    obtain ⟨same, admits⟩ := Context.foldl_resolve_of_isBehind
      (behind_of_claims (claims_greedy _ _ _) fun flag _ _ _ => Flag.behind_of_fit? flag) context
    exact ⟨same.symm, admits⟩

/-- A walk resolves the context by the parts that it recognizes. -/
theorem walk_resolves (components : List Component) (context : Context) (tokens : List Token) :
    let found := walk components context tokens
    found.context = (parts found.elements).foldl Context.resolve context ∧ context.Admits (parts found.elements) := by
  induction components generalizing context tokens with
  | nil => exact ⟨rfl, trivial⟩
  | cons component components ih =>
    rw [walk]
    cases fits : component.fit? context tokens with
    | none => exact ⟨rfl, trivial⟩
    | some found =>
      obtain ⟨resolved, admits⟩ := Component.resolves fits
      obtain ⟨later, more⟩ := ih found.context found.rest
      simp only [parts, List.map_append, List.foldl_append, Context.admits_append] at *
      rw [← resolved]
      exact ⟨later, admits, more⟩

theorem clashes_parse_iff (grammar : Grammar) (context : Context) (tokens : List Token) :
    let outcome := grammar.parse context tokens
    outcome.context.Clashes ↔ context.Strays (parts outcome.elements) := by
  obtain ⟨signature, -, chosen⟩ := List.mem_map.1 (choose_mem grammar context tokens)
  obtain ⟨resolved, admits⟩ := walk_resolves signature.components context tokens
  simp only [parse, ← chosen, Outcome.ofAttempt, attempt, Signature.walk]
  rw [resolved]
  exact Context.clashes_foldl_iff admits

end Grammar

/-! ## Rules -/

/-- What is preset strays only if its table is open. -/
theorem Context.strays_settled_iff {context : Context} {parts : List Part} :
    context.settled.Strays parts ↔ context.table? = none ∧ context.Strays parts := by
  by_cases clash : context.Clashes
  · rw [settled, if_pos clash]
    obtain ⟨table, known, -⟩ := clash
    have known : context.table? = some table := known
    simp [Strays, known]
  · rw [settled, if_neg clash]
    refine ⟨fun strays => ⟨?_, strays⟩, And.right⟩
    obtain ⟨-, chain, preset, table, first, excluded⟩ := strays
    cases known : context.table? with
    | none => rfl
    | some own =>
      obtain rfl : own = table := by simpa [known] using first
      exact absurd ⟨own, known, chain, preset, excluded⟩ clash

namespace Rule

open Grammar

/-- The rules that edits and checks make of a rule. -/
inductive Handled (start : Rule) : Rule → Prop where
  | start : Handled start start
  | delete {rule edited : Rule} {index : Nat} (before : Handled start rule)
      (edit : rule.deleteElement? index = some edited) : Handled start edited
  | set {rule edited : Rule} {index : Nat} {value : String} (before : Handled start rule)
      (edit : rule.setValue? index value = some edited) : Handled start edited
  | checkTotal {rule : Rule} (before : Handled start rule) : Handled start rule.checkTotal.2
  | checkPartial {rule : Rule} (before : Handled start rule) : Handled start rule.checkPartial.2

theorem Handled.context_eq {start rule : Rule} (handled : Handled start rule) : rule.context = start.context := by
  induction handled with
  | start => rfl
  | @delete rule edited index _ edit ih =>
    simp only [deleteElement?, Option.ite_none_right_eq_some, Option.some.injEq] at edit
    obtain ⟨-, rfl⟩ := edit
    exact ih
  | set _ edit ih =>
    simp only [setValue?, Option.pure_def, Option.bind_eq_bind, Option.bind_eq_some_iff, Option.some.injEq] at edit
    obtain ⟨element, -, changed, -, rfl⟩ := edit
    exact ih
  | checkTotal _ ih => exact ih
  | @checkPartial rule _ ih =>
    rw [Rule.checkPartial]
    split
    · exact ih
    · exact ih

/-- A rule clashes exactly if its chain is preset without a table, and its text leaves that chain alone and names a
    table that does not hold it. What is matched later clashes exactly if it strays from what the rule has resolved. -/
theorem clashes_iff (grammar : Grammar) (preset : Context) (raw : String) :
    ((new grammar preset raw).context.Clashes ↔
      preset.table? = none ∧ preset.Strays (new grammar preset raw).parts) ∧
      ∀ rule, Handled (new grammar preset raw) rule →
        rule.context = (new grammar preset raw).context ∧
          ∀ bestEffort outcome, rule.parse? bestEffort = some outcome →
            (outcome.context.Clashes ↔ rule.context.Strays (PacketFilter.parts outcome.elements)) := by
  refine ⟨?_, fun rule handled => ⟨handled.context_eq, fun bestEffort outcome matched => ?_⟩⟩
  · rw [← Context.strays_settled_iff]
    by_cases blank : Text.IsBlank raw
    · rw [new, if_pos blank]
      exact @Context.clashes_foldl_iff preset.settled [] trivial
    · rw [new, if_neg blank]
      exact clashes_parse_iff grammar preset.settled (Token.scan raw)
  · simp only [parse?, Grammar.parse?, Option.ite_none_right_eq_some, Option.some.injEq] at matched
    obtain ⟨-, rfl⟩ := matched
    exact clashes_parse_iff _ _ _

/-- A chain that is preset alone stays in a rule whose text names a table that does not hold it. -/
theorem preset_chain_clashes :
    let rule := new stock ⟨none, some .prerouting⟩ "iptables -t FILTER -A PREROUTING"
    rule.context = ⟨some .filter, some .prerouting⟩ ∧ ¬ Table.filter.Holds .prerouting ∧
      (rule.parse? true).map Outcome.context = some ⟨some .filter, some .prerouting⟩ := by
  intro rule
  exact ⟨by decide +kernel, by decide, by decide +kernel⟩

end Rule

end PacketFilter
