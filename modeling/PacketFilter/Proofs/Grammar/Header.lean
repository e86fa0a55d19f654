import PacketFilter.Grammar.Signature
import PacketFilter.Proofs.Grammar.Ports

/-!
# Headers

The components in front of the flags recognize one part each and resolve the context as they go. Main
statements: `walk_leads`, a walk over such components recognizes parts that they offer one after the other,
and `walk_of_leads`, the written form of such parts is recognized as them.
-/

namespace PacketFilter

theorem Chain.ofName?_name (chain : Chain) : ofName? chain.name = some chain := by
  cases chain <;> decide

/-- The words that a part of a header can be typed as. -/
inductive Part.TypedAs : Part → List String → Prop where
  | start (literal : String) : TypedAs (.start literal) [literal]
  | table {table : Table} {flag name : String} (spells : Table.flag.accepts flag = true)
      (names : Table.ofName? name = some table) : TypedAs (.table table) [flag, name]
  | command {command : Command} {word : String}
      (spells : Command.all.find? (fun command => command.spelling.accepts word) = some command) :
      TypedAs (.command command) [word]
  | chain (chain : Chain) : TypedAs (.chain chain) [chain.name]

/-- The table that a part names. -/
def Part.table? : Part → Option Table
  | .table named => some named
  | _ => none

/-- The chain that a part names. -/
def Part.chain? : Part → Option Chain
  | .chain named => some named
  | _ => none

/-- The context after a part. -/
def Context.resolve (context : Context) : Part → Context
  | .table table => Grammar.Component.named table context
  | .chain chain => { context with chain? := some chain }
  | _ => context

namespace Context

/-- The table after parts is the one that was known, or else the first one that they name. -/
theorem table?_foldl (context : Context) (parts : List Part) :
    (parts.foldl resolve context).table? = context.table?.or (parts.findSome? Part.table?) := by
  induction parts generalizing context with
  | nil => exact Option.or_none.symm
  | cons part parts ih =>
    have own : (context.resolve part).table? = context.table?.or part.table? := by
      cases part with
      | table table => rfl
      | _ => exact Option.or_none.symm
    rw [List.foldl_cons, ih, own, Option.or_assoc, List.findSome?_cons]
    cases part.table? <;> rfl

theorem table?_foldl_resolve {context : Context} {table : Table} (known : context.table? = some table)
    (parts : List Part) : (parts.foldl resolve context).table? = some table := by
  rw [table?_foldl, known, Option.some_or]

/-- A context that has the table in which parts end keeps it over the first of them. -/
theorem table?_foldl_of_final (context : Context) {other : Context} (front back : List Part)
    (same : other.table? = ((front ++ back).foldl resolve context).table?) :
    (front.foldl resolve other).table? = other.table? := by
  rw [table?_foldl, List.findSome?_append] at same
  rw [table?_foldl]
  cases known : other.table? with
  | some table => exact Option.some_or
  | none =>
    rw [known, eq_comm, Option.or_eq_none_iff, Option.or_eq_none_iff] at same
    rw [same.2.1, Option.or_none]

/-- The chain after parts is the last one that they name. -/
theorem chain?_foldl (context : Context) (parts : List Part) :
    (parts.foldl resolve context).chain? = (parts.reverse.findSome? Part.chain?).or context.chain? := by
  induction parts generalizing context with
  | nil => rfl
  | cons part parts ih =>
    have own : (context.resolve part).chain? = part.chain?.or context.chain? := by cases part <;> rfl
    rw [List.foldl_cons, ih, own, List.reverse_cons, List.findSome?_append, List.findSome?_singleton, Option.or_assoc]

end Context

namespace Grammar

namespace Component

/-- The parts that a component in front of the flags can recognize in a context. -/
def Offers (component : Component) (context : Context) (part : Part) : Prop :=
  match component, part with
  | start literal, .start word => word = literal
  | table tables, .table named => named ∈ tables
  | command, .command _ => True
  | chain, .chain named => ∃ table ∈ context.table?, table.Holds named
  | _, _ => False

/-- What a component offers depends on the table only, and more is offered where it is known. -/
theorem Offers.of_table? {component : Component} {context other : Context} {part : Part}
    (offers : component.Offers context part) (knows : ∀ table ∈ context.table?, table ∈ other.table?) :
    component.Offers other part := by
  cases component <;> cases part <;> try exact offers
  case chain.chain chain =>
    obtain ⟨table, known, holds⟩ := offers
    exact ⟨table, knows table known, holds⟩

theorem eq_name_of_ofName? {word : String} {named : Chain} (h : Chain.ofName? word = some named) : word = named.name := by
  rw [Chain.ofName?] at h
  have same := List.find?_some h
  exact (beq_iff_eq.1 same).symm

/-- A component in front of the flags recognizes one part that it offers, typed at the front. -/
theorem fit?_sound {component : Component} (fixed : component.isFlags = false) {context : Context}
    {tokens : List Token} {found : Match} (fits : component.fit? context tokens = some found) :
    ∃ part typed rest, tokens = typed ++ rest ∧ component.Offers context part ∧ part.TypedAs (Token.texts typed) ∧
      found = ⟨[.ofTyped part (Token.texts typed)], rest, context.resolve part⟩ := by
  cases component with
  | start literal =>
    cases tokens with
    | nil => simp [fit?] at fits
    | cons word rest =>
      simp only [fit?, Option.ite_none_right_eq_some, Option.some.injEq] at fits
      obtain ⟨rfl, rfl⟩ := fits
      exact ⟨.start word.text, [word], rest, rfl, rfl, .start word.text, by
        simp [Element.ofPart, Element.ofTyped, Part.words, Part.keyword, Part.value?, Context.resolve]⟩
  | table tables =>
    rcases tokens with _ | ⟨flag, _ | ⟨name, rest⟩⟩
    · simp [fit?, tableFit?] at fits
    · simp [fit?, tableFit?] at fits
    · simp only [fit?, tableFit?, Option.ite_none_right_eq_some, Option.bind_eq_bind, Option.bind_eq_some_iff,
        Option.some.injEq] at fits
      obtain ⟨spells, table, names, member, rfl⟩ := fits
      exact ⟨.table table, [flag, name], rest, rfl, member, .table spells names, rfl⟩
  | command =>
    cases tokens with
    | nil => simp [fit?, commandFit?] at fits
    | cons word rest =>
      simp only [fit?, commandFit?, Option.pure_def, Option.bind_eq_bind, Option.bind_eq_some_iff,
        Option.some.injEq] at fits
      obtain ⟨command, spells, rfl⟩ := fits
      exact ⟨.command command, [word], rest, rfl, trivial, .command spells, rfl⟩
  | chain =>
    cases tokens with
    | nil => simp [fit?, chainFit?] at fits
    | cons word rest =>
      simp only [fit?, chainFit?, Option.bind_eq_bind, Option.bind_eq_some_iff, Option.ite_none_right_eq_some,
        Option.some.injEq] at fits
      obtain ⟨chain, names, table, known, holds, rfl⟩ := fits
      have text := eq_name_of_ofName? names
      exact ⟨.chain chain, [word], rest, rfl, ⟨table, known, holds⟩, by simpa [text] using .chain chain, by
        simp [Element.ofPart, Element.ofTyped, Part.words, Part.keyword, Part.value?, Context.resolve, text]⟩
  | flags options => simp [isFlags] at fixed

/-- A part that a component offers is recognized however it was typed, and whatever stands behind. -/
theorem fit?_typed {component : Component} {context : Context} {part : Part} (offers : component.Offers context part)
    {typed : List Token} (spelled : part.TypedAs (Token.texts typed)) (rest : List Token) :
    component.fit? context (typed ++ rest) =
      some ⟨[.ofTyped part (Token.texts typed)], rest, context.resolve part⟩ := by
  generalize texts : Token.texts typed = words at spelled ⊢
  cases component <;> cases spelled <;> try exact offers.elim
  case start.start literal word =>
    obtain rfl : word = literal := offers
    obtain ⟨token, rfl, rfl⟩ := List.map_eq_singleton_iff.1 texts
    simp [fit?, Element.ofPart, Element.ofTyped, Part.words, Part.keyword, Part.value?, Context.resolve]
  case table.table tables table flag name spells names =>
    obtain ⟨first, others, rfl, rfl, behind⟩ := Token.texts_eq_cons_iff.1 texts
    obtain ⟨second, rfl, rfl⟩ := List.map_eq_singleton_iff.1 behind
    have member : table ∈ tables := offers
    simp [fit?, tableFit?, spells, names, member, Context.resolve]
  case command.command command word spells =>
    obtain ⟨token, rfl, rfl⟩ := List.map_eq_singleton_iff.1 texts
    simp [fit?, commandFit?, spells, Context.resolve]
  case chain.chain chain =>
    obtain ⟨table, known, holds⟩ := offers
    obtain ⟨token, rfl, text⟩ := List.map_eq_singleton_iff.1 texts
    have known : context.table? = some table := known
    simp [fit?, chainFit?, text, Chain.ofName?_name, known, holds, Element.ofPart, Element.ofTyped, Part.words,
      Part.keyword, Part.value?, Context.resolve]

theorem Offers.typedAs_words {component : Component} {context : Context} {part : Part}
    (offers : component.Offers context part) : part.TypedAs part.words := by
  cases component <;> cases part <;> try exact offers.elim
  case start.start word => exact .start word
  case table.table table => exact .table Table.flag.accepts_keyword (by cases table <;> decide)
  case command.command command => exact .command (by cases command <;> decide)
  case chain.chain chain => exact .chain chain

/-- The written form of a part is recognized by a component that offers it. -/
theorem fit?_words {component : Component} {context : Context} {part : Part} (offers : component.Offers context part)
    {tokens : List Token} {more : List String} (shape : Token.texts tokens = part.words ++ more) :
    ∃ found, component.fit? context tokens = some found ∧ parts found.elements = [part] ∧
      Token.texts found.rest = more ∧ found.context = context.resolve part := by
  obtain ⟨typed, rest, rfl, own, rfl⟩ := List.map_eq_append_iff.1 shape
  have own : Token.texts typed = part.words := own
  have spelled : part.TypedAs (Token.texts typed) := own ▸ offers.typedAs_words
  exact ⟨_, fit?_typed offers spelled rest, by simp [parts], rfl, rfl⟩

theorem fit?_nil {component : Component} (fixed : component.isFlags = false) (context : Context) :
    component.fit? context [] = none := by
  cases component with
  | flags options => simp [isFlags] at fixed
  | _ => rfl

end Component

/-! ## Walks -/

/-- The parts that components can recognize one after the other, starting in a context. -/
inductive Leads : List Component → Context → List Part → Prop where
  | stop (components : List Component) (context : Context) : Leads components context []
  | step {component : Component} {components : List Component} {context : Context} {part : Part} {parts : List Part}
      (offers : component.Offers context part) (later : Leads components (context.resolve part) parts) :
      Leads (component :: components) context (part :: parts)

section

variable {components : List Component}

/-- A walk over components without flags recognizes parts that they offer, and resolves the context by them. -/
theorem walk_leads (fixed : ∀ component ∈ components, component.isFlags = false) (context : Context)
    (tokens : List Token) :
    let found := walk components context tokens
    Leads components context (parts found.elements) ∧ found.covered = found.elements.length ∧
      found.context = (parts found.elements).foldl Context.resolve context := by
  induction components generalizing context tokens with
  | nil => exact ⟨.stop [] context, rfl, rfl⟩
  | cons component components ih =>
    rw [walk]
    cases fits : component.fit? context tokens with
    | none => exact ⟨.stop _ context, rfl, rfl⟩
    | some found =>
      obtain ⟨part, typed, rest, rfl, offers, -, rfl⟩ := Component.fit?_sound (fixed component (by simp)) fits
      obtain ⟨leads, counted, resolved⟩ := ih (fun other member => fixed other (by simp [member]))
        (context.resolve part) rest
      exact ⟨.step offers leads, by simp [counted], resolved⟩

/-- The parts that a walk recognizes are typed one after the other in front of the rest. -/
theorem walk_typed (fixed : ∀ component ∈ components, component.isFlags = false) (context : Context)
    (tokens : List Token) :
    let found := walk components context tokens
    ∃ typed, Token.texts tokens = typed.flatten ++ Token.texts found.rest ∧
      List.Forall₂ Part.TypedAs (parts found.elements) typed := by
  induction components generalizing context tokens with
  | nil => exact ⟨[], rfl, .nil⟩
  | cons component components ih =>
    rw [walk]
    cases fits : component.fit? context tokens with
    | none => exact ⟨[], rfl, .nil⟩
    | some found =>
      obtain ⟨part, own, rest, rfl, -, typedAs, rfl⟩ := Component.fit?_sound (fixed component (by simp)) fits
      obtain ⟨typed, shape, all⟩ := ih (fun other member => fixed other (by simp [member])) (context.resolve part) rest
      exact ⟨Token.texts own :: typed, by simp [shape], .cons typedAs all⟩

theorem rest_sublist_of_walk (fixed : ∀ component ∈ components, component.isFlags = false) (context : Context)
    (tokens : List Token) : (walk components context tokens).rest.Sublist tokens := by
  induction components generalizing context tokens with
  | nil => exact .refl _
  | cons component components ih =>
    rw [walk]
    cases fits : component.fit? context tokens with
    | none => exact .refl _
    | some found =>
      obtain ⟨part, typed, rest, rfl, -, -, rfl⟩ := Component.fit?_sound (fixed component (by simp)) fits
      have later := ih (fun other member => fixed other (by simp [member])) (context.resolve part) rest
      exact later.trans (List.sublist_append_right typed rest)

/-- The written form of parts that components offer is recognized as these parts, up to where they end. -/
theorem walk_of_leads (fixed : ∀ component ∈ components, component.isFlags = false) {context : Context}
    {ps : List Part} (leads : Leads components context ps) {tokens : List Token} {more : List String}
    (shape : Token.texts tokens = ps.flatMap Part.words ++ more) (ends : ps.length = components.length ∨ more = []) :
    let found := walk components context tokens
    parts found.elements = ps ∧ found.covered = ps.length ∧ Token.texts found.rest = more ∧
      found.context = ps.foldl Context.resolve context := by
  induction leads generalizing tokens with
  | stop components context =>
    cases components with
    | nil => exact ⟨rfl, rfl, shape, rfl⟩
    | cons component components =>
      obtain rfl : more = [] := by simpa using ends
      obtain rfl : tokens = [] := List.map_eq_nil_iff.1 shape
      rw [walk, Component.fit?_nil (fixed component (by simp))]
      exact ⟨rfl, rfl, rfl, rfl⟩
  | step offers later ih =>
    rw [List.flatMap_cons, List.append_assoc] at shape
    obtain ⟨found, fits, meaning, rest, resolved⟩ := Component.fit?_words offers shape
    rw [← resolved] at ih
    obtain ⟨others, counted, left, final⟩ := ih (fun other member => fixed other (by simp [member])) rest
      (by simpa using ends)
    simp only [walk, fits, parts, List.map_append] at meaning others ⊢
    rw [meaning, others, resolved] at *
    exact ⟨rfl, by simp [counted], left, final⟩

/-- Parts that lead from a context lead from every context that knows the table they end in. -/
theorem Leads.of_table? {context other : Context} {ps : List Part} (leads : Leads components context ps)
    (same : other.table? = (ps.foldl Context.resolve context).table?) : Leads components other ps := by
  induction leads generalizing other with
  | stop components context => exact .stop components other
  | @step component components context part ps offers later ih =>
    have knows : ∀ table ∈ context.table?, table ∈ other.table? := fun table known =>
      same.trans (Context.table?_foldl_resolve known (part :: ps))
    exact .step (offers.of_table? knows) (ih ((Context.table?_foldl_of_final context [part] ps same).trans same))

/-- A context that is final for its parts: either they name no chain, or the table holds the chain they name. -/
theorem Leads.chain? {context : Context} {ps : List Part} (leads : Leads components context ps) :
    (∀ other : Context, (ps.foldl Context.resolve other).chain? = other.chain?) ∨
      ∃ table chain, (ps.foldl Context.resolve context).table? = some table ∧ table.Holds chain ∧
        ∀ other : Context, (ps.foldl Context.resolve other).chain? = some chain := by
  induction leads with
  | stop => exact .inl fun _ => rfl
  | @step component components context part ps offers later ih =>
    rcases ih with unnamed | ⟨table, chain, known, holds, named⟩
    · cases component <;> cases part <;> try exact offers.elim
      case chain.chain chain =>
        obtain ⟨table, known, holds⟩ := offers
        exact .inr ⟨table, chain, Context.table?_foldl_resolve known (.chain chain :: ps), holds, fun other => unnamed _⟩
      all_goals exact .inl fun other => unnamed _
    · exact .inr ⟨table, chain, known, holds, fun other => named _⟩

end

end Grammar

end PacketFilter
