import Mathlib.Data.List.TakeWhile
import PacketFilter.Proofs.Rule.RoundTrip

/-!
# Ports and the protocols that they belong to

In a rule of the stock grammar each port stands in a run of ports directly behind the selector of its protocol, and was
typed between that selector and the next one. So a rule with a port decides on packets of the port's protocol only. Main
statements: `bound_of_claims` and `new_binding`.
-/

namespace PacketFilter

/-- Whether a token does not select a protocol. -/
def Token.inScope (token : Token) : Bool := !Protocol.flag.accepts token.text

namespace Grammar

/-- Ports of a protocol that were typed in a scope: one after another, the flag of each and the number behind it are
    taken out. -/
inductive Drawn (p : Protocol) : List Token → List Element → Prop where
  | nil (scope : List Token) : Drawn p scope []
  | take {front back : List Token} {flag value : Token} {side : Side} {number : UInt16} {ports : List Element}
      (spells : side.portFlag.accepts flag.text = true) (reads : Port.number? value.text = some number)
      (later : Drawn p (front ++ back) ports) :
      Drawn p (front ++ flag :: value :: back)
        (.ofTyped (.condition (.port side p) (some number.toNat.repr)) [flag.text, value.text] :: ports)

/-- A selector of a protocol with ports that were typed between it and the next token that selects a protocol. -/
def Selects (tokens : List Token) (p : Protocol) (selector : Element) (ports : List Element) : Prop :=
  ∃ before flag name scope after, tokens = before ++ flag :: name :: (scope ++ after) ∧
    Protocol.flag.accepts flag.text = true ∧ p.isNamed name.text = true ∧
    selector = .ofTyped (.condition (.protocol p) none) [flag.text, name.text] ∧
    (∀ token ∈ scope, token.inScope = true) ∧ (∀ token ∈ after.head?, token.inScope = false) ∧ Drawn p scope ports

/-- Elements in which ports stand behind the selector of their protocol only. -/
inductive Bound (tokens : List Token) : List Element → Prop where
  | nil : Bound tokens []
  | single {element : Element} {elements : List Element}
      (unbound : ∀ side p value?, element.part ≠ .condition (.port side p) value?) (later : Bound tokens elements) :
      Bound tokens (element :: elements)
  | selection {p : Protocol} {selector : Element} {ports elements : List Element}
      (selects : Selects tokens p selector ports) (later : Bound tokens elements) :
      Bound tokens (selector :: ports ++ elements)

theorem Drawn.port {p : Protocol} {scope : List Token} {ports : List Element} (drawn : Drawn p scope ports)
    {element : Element} (member : element ∈ ports) : ∃ side value, element.part = .condition (.port side p) (some value) := by
  induction drawn with
  | nil => cases member
  | take spells reads later ih =>
    rcases List.mem_cons.1 member with rfl | member
    · exact ⟨_, _, rfl⟩
    · exact ih member

/-- Each port is bound to a selector of its protocol. -/
theorem Bound.exists_selects {tokens : List Token} {elements : List Element} (bound : Bound tokens elements)
    {element : Element} (member : element ∈ elements) {side : Side} {p : Protocol} {value? : Option String}
    (port : element.part = .condition (.port side p) value?) :
    ∃ others selector ports later, elements = others ++ selector :: ports ++ later ∧ element ∈ ports ∧
      Selects tokens p selector ports := by
  induction bound with
  | nil => cases member
  | @single first elements unbound later ih =>
    rcases List.mem_cons.1 member with rfl | member
    · exact absurd port (unbound side p value?)
    · obtain ⟨others, selector, ports, behind, rfl, inside, selects⟩ := ih member
      exact ⟨first :: others, selector, ports, behind, rfl, inside, selects⟩
  | @selection q selector ports elements selects later ih =>
    rcases List.mem_append.1 member with inFront | member
    · have selects' := selects
      obtain ⟨_, flag, name, scope, _, _, _, _, rfl, _, _, drawn⟩ := selects'
      rcases List.mem_cons.1 inFront with rfl | inside
      · simp at port
      · obtain ⟨own, value, same⟩ := drawn.port inside
        obtain ⟨⟨-, rfl⟩, -⟩ : (own = side ∧ q = p) ∧ some value = value? := by simpa [port, eq_comm] using same
        exact ⟨[], _, ports, elements, rfl, inside, selects⟩
    · obtain ⟨others, selector', ports', behind, rfl, inside, selects'⟩ := ih member
      exact ⟨selector :: ports ++ others, selector', ports', behind, by simp, inside, selects'⟩

/-! ## What is bound -/

theorem drawn_of_claims {p : Protocol} {sides : List Side} {tokens : List Token} {scan : Scan Recognizer}
    (claims : Claims id (sides.map fun side => Flag.portFit? side p) tokens scan) : Drawn p tokens scan.elements := by
  generalize recognized : sides.map (fun side => Flag.portFit? side p) = options at claims
  induction claims generalizing sides with
  | stop => exact .nil _
  | claim earlier fits later ih =>
    obtain ⟨front, back, rfl, rfl, split⟩ := List.map_eq_append_iff.1 recognized
    obtain ⟨side, rest, rfl, rfl, rfl⟩ := List.map_eq_cons_iff.1 split
    obtain ⟨ahead, flag, value, behind, port, rfl, spells, -, number, rfl⟩ := Flag.portFit?_eq_some_iff.1 fits
    exact (@ih (front ++ rest) (by simp)).take spells number

theorem dropWhile_suffix {α : Type} (q : α → Bool) {back front : List α} (suffix : back <:+ front) :
    back.dropWhile q <:+ front.dropWhile q := by
  obtain ⟨ahead, rfl⟩ := suffix
  rw [List.dropWhile_append]
  split
  · exact List.suffix_rfl
  · exact (List.dropWhile_suffix q).trans (List.suffix_append _ _)

/-- A flag that is no protocol recognizes one element, which is no port, in front of the rest. -/
theorem single_of_fit? {flag : Flag} (single : (∃ c ∈ Condition.valued, flag.condition? = some c) ∨ flag = .jump)
    {tokens : List Token} {fit : Fit} (fits : flag.fit? tokens = some fit) :
    ∃ element, fit.elements = [element] ∧ (∀ side p value?, element.part ≠ .condition (.port side p) value?) ∧
      fit.rest <:+ tokens := by
  rcases single with ⟨c, valued, own⟩ | rfl
  · rw [Flag.fit?_of_valued valued own] at fits
    obtain ⟨word, value, rest, rfl, -, -, rfl⟩ := Clause.valueFit?_eq_some_iff.1 fits
    refine ⟨_, rfl, ?_, ⟨[word, value], rfl⟩⟩
    rintro side p value? same
    obtain ⟨rfl, -⟩ : c = .port side p ∧ _ := by simpa using same
    simp [Condition.valued] at valued
  · rw [Flag.fit?] at fits
    obtain ⟨word, name, a, -, -, ⟨rest, -, rfl, rfl⟩ | ⟨option, target, rest, -, -, rfl, rfl⟩⟩ :=
      Clause.jumpFit?_cases fits
    · exact ⟨_, rfl, by simp, ⟨[word, name], rfl⟩⟩
    · exact ⟨_, rfl, by simp, ⟨[word, name, option, target], rfl⟩⟩

/-- A flag that fits puts bound elements in front. What carries this: from the next selector on, the tokens that are left
    are still those of the text. -/
theorem bound_of_fit? {flag : Flag} (member : flag ∈ stockFlags) {whole tokens : List Token} {fit : Fit}
    (untouched : tokens.dropWhile Token.inScope <:+ whole) (fits : flag.fit? tokens = some fit) :
    (∀ elements, Bound whole elements → Bound whole (fit.elements ++ elements)) ∧
      fit.rest.dropWhile Token.inScope <:+ whole := by
  rcases Flag.stock_cases member with ⟨p, hasPorts, rfl⟩ | single
  · obtain ⟨word, name, rest, rfl, spells, names, rfl⟩ := (Clause.fit?_ofProtocol_eq_some_iff hasPorts).1 fits
    have outside : Token.inScope word = false := by simp [Token.inScope, spells]
    rw [List.dropWhile_cons_of_neg (by simp [outside])] at untouched
    obtain ⟨before, rfl⟩ := untouched
    let scan := greedy id [Flag.portFit? .source p, Flag.portFit? .destination p] (rest.takeWhile Token.inScope)
    have claims : Claims id ([.source, .destination].map fun side => Flag.portFit? side p) _ scan := claims_greedy id _ _
    have inside : ∀ token ∈ rest.takeWhile Token.inScope, token.inScope = true := fun _ => List.mem_takeWhile_imp
    have selects : Selects (before ++ word :: name :: rest) p
        (.ofTyped (.condition (.protocol p) none) [word.text, name.text]) scan.elements := by
      refine ⟨before, word, name, rest.takeWhile Token.inScope, rest.dropWhile Token.inScope, ?_, spells, names, rfl, inside,
        ?_, drawn_of_claims claims⟩
      · rw [List.takeWhile_append_dropWhile]
      · intro token first
        have stopped := List.head?_dropWhile_not Token.inScope rest
        rw [Option.mem_def.1 first] at stopped
        simpa using stopped
    obtain ⟨-, -, -, -, fewer⟩ := Flag.claims_ports (by decide) claims
    refine ⟨fun elements later => .selection selects later, ?_⟩
    have behind : (scan.rest ++ rest.dropWhile Token.inScope).dropWhile Token.inScope =
        (rest.dropWhile Token.inScope).dropWhile Token.inScope :=
      List.dropWhile_append_of_pos fun token isLeft => inside token (fewer.subset isLeft)
    have within : (rest.dropWhile Token.inScope).dropWhile Token.inScope <:+ rest :=
      (List.dropWhile_suffix _).trans (List.dropWhile_suffix _)
    exact behind ▸ within.trans ⟨before ++ [word, name], by simp⟩
  · obtain ⟨element, own, unbound, behind⟩ := single_of_fit? single fits
    rw [own]
    exact ⟨fun elements later => .single unbound later, (dropWhile_suffix _ behind).trans untouched⟩

/-- The elements of flags behind a header are bound. -/
theorem bound_of_claims {flags : List Flag} (stock : flags.Sublist stockFlags) {whole tokens : List Token}
    {scan : Scan Flag} (claims : Claims Flag.fit? flags tokens scan)
    (untouched : tokens.dropWhile Token.inScope <:+ whole) : Bound whole scan.elements := by
  induction claims with
  | stop => exact .nil
  | claim earlier fits later ih =>
    obtain ⟨more, untouched⟩ := bound_of_fit? (stock.subset (by simp)) untouched fits
    exact more _ (ih (List.Sublist.trans (by simp) stock) untouched)

theorem rest_suffix_of_walk {components : List Component} (fixed : ∀ component ∈ components, component.isFlags = false)
    (context : Context) (tokens : List Token) : (walk components context tokens).rest <:+ tokens := by
  induction components generalizing context tokens with
  | nil => exact List.suffix_rfl
  | cons component components ih =>
    rw [walk]
    cases fits : component.fit? context tokens with
    | none => exact List.suffix_rfl
    | some found =>
      obtain ⟨part, typed, rest, rfl, -, -, rfl⟩ := Component.fit?_sound (fixed component (by simp)) fits
      have later := ih (fun other member => fixed other (by simp [member])) (context.resolve part) rest
      exact later.trans (List.suffix_append typed rest)

end Grammar

/-! ## What occurs once -/

namespace Grammar.Clause

/-- The flag of the stock grammar that recognizes a condition, or an action. -/
def flagOf : Option Condition → Flag
  | some (.protocol p) | some (.port _ p) => .ofProtocol p
  | some (.address side) => .address side
  | some (.interface direction) => .interface direction
  | some .state => .state
  | none => .jump

theorem Proper.flag_eq {clause : Clause} (proper : clause.Proper) {part : Part} (member : part ∈ clause.parts) :
    clause.flag = flagOf part.condition? := by
  cases clause with
  | protocol p ports =>
    rcases List.mem_cons.1 member with rfl | isPort
    · rfl
    · obtain ⟨port, -, rfl⟩ := List.mem_map.1 isPort
      rfl
  | value c text =>
    obtain rfl := List.mem_singleton.1 member
    rcases Condition.mem_valued.1 proper with rfl | rfl | rfl | rfl | rfl <;> rfl
  | jump a target? =>
    obtain rfl := List.mem_singleton.1 member
    rfl

theorem Proper.nodup_condition? {clause : Clause} (proper : clause.Proper) :
    (clause.parts.map Part.condition?).Nodup := by
  cases clause with
  | protocol p ports =>
    have own : (protocol p ports).parts.map Part.condition? =
        some (.protocol p) :: (ports.map Prod.fst).map fun side => some (.port side p) := by
      simp [parts, Flag.portParts, Part.condition?]
    rw [own, List.nodup_cons]
    refine ⟨by simp, proper.2.map fun _ _ same => ?_⟩
    simpa using same
  | _ => exact List.nodup_singleton _

/-- Among the parts of clauses each condition occurs once, and so does an action. -/
theorem Fits.nodup_condition? {clauses : List Clause} {flags : List Flag} (fits : Fits clauses flags) :
    ((allParts clauses).map Part.condition?).Nodup := by
  rw [allParts, List.map_flatMap, List.nodup_flatMap]
  refine ⟨fun clause member => (fits.proper clause member).nodup_condition?, ?_⟩
  have single : clauses.Pairwise fun a b => a.flag ≠ b.flag := List.pairwise_map.1 fits.single
  refine single.imp_of_mem fun isFirst isSecond differ c inFirst inSecond => differ ?_
  obtain ⟨first, isPart, rfl⟩ := List.mem_map.1 inFirst
  obtain ⟨second, isOther, same⟩ := List.mem_map.1 inSecond
  rw [(fits.proper _ isFirst).flag_eq isPart, (fits.proper _ isSecond).flag_eq isOther, same]

theorem part_cases {clauses : List Clause} {part : Part} (member : part ∈ allParts clauses) :
    (∃ c value?, part = .condition c value?) ∨ ∃ a value?, part = .action a value? := by
  obtain ⟨clause, -, own⟩ := List.mem_flatMap.1 member
  cases clause with
  | protocol p ports =>
    rcases List.mem_cons.1 own with rfl | isPort
    · exact .inl ⟨_, _, rfl⟩
    · obtain ⟨port, -, rfl⟩ := List.mem_map.1 isPort
      exact .inl ⟨_, _, rfl⟩
  | value c text => exact .inl ⟨c, some text, List.mem_singleton.1 own⟩
  | jump a target? => exact .inr ⟨a, target?, List.mem_singleton.1 own⟩

end Grammar.Clause

/-! ## Rules -/

namespace Part

theorem nodup_filterMap_condition? {parts : List Part} (once : (parts.map condition?).Nodup) :
    (parts.filterMap condition?).Nodup := by
  have found := once.filterMap (f := id) fun _ _ _ first second => first.trans second.symm
  rwa [List.filterMap_map] at found

theorem run?_of_fails {parts : List Part} {part : Part} (member : part ∈ parts) {packet : Packet}
    (fails : part.fails packet = true) : run? parts packet = none := by
  rw [run?_eq, if_pos (List.any_eq_true.2 ⟨part, member, fails⟩)]

theorem fails_protocol {packet : Packet} {p : Protocol} (other : packet.protocol? ≠ some p) (value? : Option String) :
    (condition (.protocol p) value?).fails packet = true := by
  simp [fails, Condition.test, other]

end Part

namespace Rule

open Grammar

/-- A header has no conditions. -/
theorem condition?_of_isPrefix {table : Table} {command : Command} {chain : Chain} {ps : List Part}
    (ahead : ps <+: headerParts table command chain) : ∀ part ∈ ps, part.condition? = none := by
  intro part member
  rcases mem_headerParts.1 (ahead.subset member) with rfl | rfl | rfl | rfl <;> rfl

/-- The elements of a rule are those of a header and, if it is whole, bound ones of flags. -/
theorem exists_flags (preset : Context) (raw : String) :
    ∃ front flags, (new stock preset raw).elements = front ++ flags ∧
      (∃ table command chain, PacketFilter.parts front <+: headerParts table command chain) ∧
      (flags ≠ [] → front.length = 4) ∧ Bound (Token.scan raw) flags ∧
      ((PacketFilter.parts flags).map Part.condition?).Nodup ∧
      ∀ part ∈ PacketFilter.parts flags, (∃ c value?, part = .condition c value?) ∨ ∃ a value?, part = .action a value? := by
  obtain ⟨same, -⟩ := new_stock preset raw
  have words : ∀ token ∈ Token.scan raw, IsWord token.text := fun _ => Token.isWord_of_mem_scan
  obtain ⟨clauses, shape, meaning, -⟩ := shape_of_walk preset.settled words
  obtain ⟨-, result⟩ := parse_stock preset.settled (Token.scan raw)
  have behind := rest_suffix_of_walk header_fixed preset.settled (Token.scan raw)
  have counted := covered_header preset.settled (Token.scan raw)
  generalize walk header preset.settled (Token.scan raw) = head at shape meaning result behind counted
  have layout (flags : List Element) (split : (new stock preset raw).elements = head.elements ++ flags) :
      PacketFilter.parts flags = Clause.allParts clauses := by
    rw [same] at split
    rw [split, PacketFilter.parts, List.map_append] at meaning
    exact List.append_cancel_left meaning
  have once (flags : List Element) (own : PacketFilter.parts flags = Clause.allParts clauses) :
      ((PacketFilter.parts flags).map Part.condition?).Nodup ∧ ∀ part ∈ PacketFilter.parts flags,
        (∃ c value?, part = .condition c value?) ∨ ∃ a value?, part = .action a value? := by
    rw [own]
    exact ⟨shape.fits.nodup_condition?, fun part => Clause.part_cases⟩
  by_cases whole : head.covered = 4
  · rw [if_pos whole, ← same] at result
    have untouched := (List.dropWhile_suffix Token.inScope).trans behind
    have bound := bound_of_claims (List.Sublist.refl _) (claims_greedy Flag.fit? stockFlags head.rest) untouched
    refine ⟨_, _, result.1, shape.leads.isPrefix, fun _ => ?_, bound, once _ (layout _ result.1)⟩
    rw [← whole, counted, PacketFilter.parts, List.length_map]
  · rw [if_neg whole, ← same] at result
    have split : (new stock preset raw).elements = head.elements ++ [] := by rw [result.1, List.append_nil]
    exact ⟨_, _, split, shape.leads.isPrefix, fun more => absurd rfl more, .nil, once _ (layout _ split)⟩

/-- The elements of a rule are those of a header and, if it is whole, those of flags, among which each condition occurs
    once and an action at most once, and each port stands in the run of ports behind the selector of its protocol, where
    it was typed too. So a rule with a port decides on packets of its protocol only, and one with two protocols on none. -/
theorem new_binding (preset : Context) (raw : String) :
    let rule := new stock preset raw
    (∃ front flags, rule.elements = front ++ flags ∧
      (∃ table command chain, PacketFilter.parts front <+: headerParts table command chain) ∧
      (flags ≠ [] → front.length = 4) ∧
      (∀ part ∈ PacketFilter.parts flags, (∃ c value?, part = .condition c value?) ∨ ∃ a value?, part = .action a value?) ∧
      ((PacketFilter.parts flags).filterMap Part.condition?).Nodup ∧
      ((PacketFilter.parts flags).filterMap Part.action?).length ≤ 1 ∧
      ∀ element ∈ flags, ∀ side p value?, element.part = .condition (.port side p) value? →
        ∃ others selector ports later, flags = others ++ selector :: ports ++ later ∧ element ∈ ports ∧
          Selects (Token.scan raw) p selector ports) ∧
    (∀ side p value?, .condition (.port side p) value? ∈ rule.parts →
      ∀ packet, packet.protocol? ≠ some p → rule.run? packet = none) ∧
    ∀ p q value? other?, [.condition (.protocol p) value?, .condition (.protocol q) other?].Sublist rule.parts →
      ∀ packet, rule.run? packet = none := by
  intro rule
  obtain ⟨front, flags, same, ahead, whole, bound, once, kinds⟩ := exists_flags preset raw
  have parts_eq : rule.parts = PacketFilter.parts front ++ PacketFilter.parts flags := by
    rw [parts, same, PacketFilter.parts, List.map_append]
    rfl
  have noConditions : ∀ part ∈ PacketFilter.parts front, part.condition? = none := by
    obtain ⟨table, command, chain, ahead⟩ := ahead
    exact condition?_of_isPrefix ahead
  refine ⟨⟨front, flags, same, ahead, whole, kinds, Part.nodup_filterMap_condition? once,
    Part.length_filterMap_action? once, fun element member side p value? port => bound.exists_selects member port⟩, ?_, ?_⟩
  · intro side p value? member packet other
    have inFlags : Part.condition (.port side p) value? ∈ PacketFilter.parts flags := by
      rw [parts_eq] at member
      refine (List.mem_append.1 member).resolve_left fun inFront => ?_
      exact absurd (noConditions _ inFront) (by simp [Part.condition?])
    obtain ⟨element, inside, own⟩ := List.mem_map.1 inFlags
    obtain ⟨others, selector, ports, later, rfl, -, _, flag, name, _, _, _, _, _, rfl, -⟩ :=
      bound.exists_selects inside own
    have selected : Part.condition (.protocol p) none ∈ rule.parts := by
      rw [parts_eq]
      simp [PacketFilter.parts]
    exact Part.run?_of_fails selected (Part.fails_protocol other none)
  · intro p q value? other? both packet
    have conditions : rule.parts.filterMap Part.condition? = (PacketFilter.parts flags).filterMap Part.condition? := by
      rw [parts_eq, List.filterMap_append, List.filterMap_eq_nil_iff.2 noConditions, List.nil_append]
    have pair := both.filterMap Part.condition?
    rw [conditions] at pair
    have differ : p ≠ q := by
      have nodup := (Part.nodup_filterMap_condition? once).sublist pair
      simpa [Part.condition?] using nodup
    by_cases first : packet.protocol? = some p
    · have second : packet.protocol? ≠ some q := fun same => differ (Option.some.inj (first.symm.trans same))
      exact Part.run?_of_fails (both.subset (by simp)) (Part.fails_protocol second other?)
    · exact Part.run?_of_fails (both.subset (by simp)) (Part.fails_protocol first value?)

/-- A port behind two protocols belongs to the second one. -/
example : (new stock .unknown "iptables -t FILTER -A INPUT -p tcp -p udp --dport 53").parts.drop 4 =
    [.condition (.protocol .tcp) none, .condition (.protocol .udp) none,
      .condition (.port .destination .udp) (some "53")] := by
  decide +kernel

end Rule

end PacketFilter
