import PacketFilter.Proofs.Rule.RoundTrip

/-!
# Edited rules

Elements of a rule can be deleted and their values changed. The check of the rule reads its written form,
while packets are tested by the edited parts. Main statements: `Revised.descends`, what edits leave of a rule,
and `checked_iff`, when the rule that a check reads is the edited one.
-/

namespace PacketFilter

namespace Part

/-- A part without its value, which an edit can change. -/
def form : Part → Part
  | .condition c (some _) => .condition c (some "")
  | .action a (some _) => .action a (some "")
  | part => part

theorem form_of_setValue? {part changed : Part} {value : String} (edit : part.setValue? value = some changed) :
    changed.form = part.form := by
  cases part with
  | condition c given? =>
    cases given? with
    | none => simp [setValue?] at edit
    | some old =>
      obtain rfl : Part.condition c (some value) = changed := by simpa [setValue?] using edit
      rfl
  | action a given? =>
    cases given? with
    | none => simp [setValue?] at edit
    | some old =>
      obtain rfl : Part.action a (some value) = changed := by simpa [setValue?] using edit
      rfl
  | _ => simp [setValue?] at edit

theorem form_eq_self {part : Part} {table : Table} {command : Command} {chain : Chain}
    (h : part.form ∈ Grammar.headerParts table command chain) : part.form = part := by
  cases part with
  | condition c given? =>
    cases given? with
    | none => rfl
    | some value => simp [form, Grammar.headerParts] at h
  | action a given? =>
    cases given? with
    | none => rfl
    | some value => simp [form, Grammar.headerParts] at h
  | _ => rfl

theorem form_headerParts {table : Table} {command : Command} {chain : Chain} {part : Part}
    (h : part ∈ Grammar.headerParts table command chain) : part.form = part := by
  rcases Grammar.mem_headerParts.1 h with rfl | rfl | rfl | rfl <;> rfl

theorem eq_of_form_condition {part : Part} {c : Condition} (h : part.form = .condition c (some "")) :
    ∃ value, part = .condition c (some value) := by
  cases part with
  | condition d given? =>
    cases given? with
    | none => simp [form] at h
    | some value => exact ⟨value, by simp_all [form]⟩
  | action a given? => cases given? <;> simp [form] at h
  | _ => simp [form] at h

theorem eq_of_form_condition_none {part : Part} {c : Condition} (h : part.form = .condition c none) :
    part = .condition c none := by
  cases part with
  | condition d given? =>
    cases given? with
    | none => exact h
    | some value => simp [form] at h
  | action a given? => cases given? <;> simp [form] at h
  | _ => simp [form] at h

theorem eq_of_form_action {part : Part} {a : Action} {target? : Option String}
    (h : part.form = (Part.action a target?).form) :
    ∃ value?, part = .action a value? ∧ value?.isSome = target?.isSome := by
  cases part with
  | action b value? => cases value? <;> cases target? <;> simp_all [form]
  | condition c given? => cases given? <;> cases target? <;> simp [form] at h
  | _ => cases target? <;> simp [form] at h

/-- The protocol that a part asks for, or whose port it asks for. -/
def protocol? : Part → Option Protocol
  | .condition (.protocol p) _ | .condition (.port _ p) _ => some p
  | _ => none

@[simp] theorem protocol?_form (part : Part) : part.form.protocol? = part.protocol? := by
  cases part with
  | condition c given? => cases c <;> cases given? <;> rfl
  | action a given? => cases given? <;> rfl
  | _ => rfl

/-- Whether a part is a condition or an action, and not one of the header. -/
def IsBehind : Part → Prop
  | condition _ _ | action _ _ => True
  | _ => False

theorem isBehind_form {part : Part} : part.form.IsBehind ↔ part.IsBehind := by
  cases part with
  | condition c given? => cases given? <;> exact Iff.rfl
  | action a given? => cases given? <;> exact Iff.rfl
  | _ => exact Iff.rfl

end Part

namespace Rule

open Grammar

/-- Rules that are read from texts and then edited. -/
inductive Revised (grammar : Grammar) : Rule → Prop where
  | new (preset : Context) (raw : String) : Revised grammar (new grammar preset raw)
  | delete {rule edited : Rule} {index : Nat} (before : Revised grammar rule)
      (edit : rule.deleteElement? index = some edited) : Revised grammar edited
  | set {rule edited : Rule} {index : Nat} {value : String} (before : Revised grammar rule)
      (edit : rule.setValue? index value = some edited) : Revised grammar edited

/-! ## What edits leave -/

/-- What is known of an edited rule: its parts are among those of a rule that was read, up to their values. -/
structure Descends (rule : Rule) (front : List Part) (clauses : List Clause) : Prop
    extends Shape rule.context.settled front clauses where
  grammar_eq : rule.grammar = stock
  resolved : front.foldl Context.resolve rule.context.settled = rule.context.settled
  sublist : (rule.parts.map Part.form).Sublist ((front ++ Clause.allParts clauses).map Part.form)

theorem Descends.delete {rule edited : Rule} {index : Nat} {front : List Part} {clauses : List Clause}
    (h : Descends rule front clauses) (edit : rule.deleteElement? index = some edited) :
    Descends edited front clauses := by
  simp only [deleteElement?, Option.ite_none_right_eq_some, Option.some.injEq] at edit
  obtain ⟨-, rfl⟩ := edit
  have fewer : (rule.elements.eraseIdx index).Sublist rule.elements := List.eraseIdx_sublist rule.elements index
  exact { h with sublist := ((fewer.map Element.part).map Part.form).trans h.sublist }

theorem Descends.set {rule edited : Rule} {index : Nat} {value : String} {front : List Part} {clauses : List Clause}
    (h : Descends rule front clauses) (edit : rule.setValue? index value = some edited) :
    Descends edited front clauses := by
  simp only [setValue?, Option.pure_def, Option.bind_eq_bind, Option.bind_eq_some_iff, Option.some.injEq] at edit
  obtain ⟨element, found, changed, change, rfl⟩ := edit
  obtain ⟨part, partChange, rfl⟩ := Option.map_eq_some_iff.1 change
  have same : (rule.elements.set index (.ofPart part)).map (Part.form ∘ Element.part) =
      rule.elements.map (Part.form ∘ Element.part) := by
    obtain ⟨inside, rfl⟩ := List.getElem?_eq_some_iff.1 found
    have bound : index < (rule.elements.map (Part.form ∘ Element.part)).length := by simpa using inside
    have form : (Part.form ∘ Element.part) (.ofPart part) = (rule.elements.map (Part.form ∘ Element.part))[index] := by
      simp [Part.form_of_setValue? partChange]
    rw [List.map_set, form, List.set_getElem_self]
  refine { h with sublist := ?_ }
  have before := h.sublist
  rw [parts, PacketFilter.parts, List.map_map] at before ⊢
  rw [same]
  exact before

theorem Revised.descends {rule : Rule} (revised : Revised stock rule) : ∃ front clauses, Descends rule front clauses := by
  induction revised with
  | new preset raw =>
    obtain ⟨front, clauses, parsed⟩ := parsed_new preset raw
    exact ⟨front, clauses, parsed.toShape, grammar_new stock preset raw, parsed.resolved, by rw [parsed.parts_eq]⟩
  | delete before edit ih =>
    obtain ⟨front, clauses, origin⟩ := ih
    exact ⟨front, clauses, origin.delete edit⟩
  | set before edit ih =>
    obtain ⟨front, clauses, origin⟩ := ih
    exact ⟨front, clauses, origin.set edit⟩

/-- The parts of an edited rule: some of the header, and some of the clauses with perhaps other values. -/
theorem Descends.split {rule : Rule} {front : List Part} {clauses : List Clause} (h : Descends rule front clauses) :
    ∃ kept later, rule.parts = kept ++ later ∧ kept.Sublist front ∧
      (later.map Part.form).Sublist ((Clause.allParts clauses).map Part.form) := by
  have sublist := h.sublist
  rw [List.map_append, List.sublist_append_iff] at sublist
  obtain ⟨first, second, split, inFront, inClauses⟩ := sublist
  obtain ⟨kept, later, whole, rfl, rfl⟩ := List.map_eq_append_iff.1 split
  obtain ⟨table, command, chain, ahead⟩ := h.leads.isPrefix
  have headerForm : front.map Part.form = front :=
    (List.map_congr_left fun part member => Part.form_headerParts (ahead.subset member)).trans (List.map_id front)
  have keptForm : kept.map Part.form = kept := by
    refine (List.map_congr_left fun part member => ?_).trans (List.map_id kept)
    have inside := inFront.subset (List.mem_map_of_mem member)
    rw [headerForm] at inside
    exact Part.form_eq_self (ahead.subset inside)
  exact ⟨kept, later, whole, by rwa [keptForm, headerForm] at inFront, inClauses⟩

/-! ## Clauses with other values -/

/-- The values of parts are words. -/
def WordValued (parts : List Part) : Prop := ∀ part ∈ parts, ∀ value ∈ part.value?, IsWord value

instance (parts : List Part) : Decidable (WordValued parts) :=
  inferInstanceAs (Decidable (∀ part ∈ parts, ∀ value ∈ part.value?, _))

/-- The protocol of every port is there. -/
def Anchored (parts : List Part) : Prop :=
  ∀ part ∈ parts, ∀ p ∈ part.protocol?, Part.condition (.protocol p) none ∈ parts

instance (parts : List Part) : Decidable (Anchored parts) :=
  inferInstanceAs (Decidable (∀ part ∈ parts, ∀ p ∈ part.protocol?, _))

/-- A part of clauses that belongs to a protocol stands in the clause of the protocol. -/
theorem mem_allParts_protocol? {clauses : List Clause} (proper : ∀ clause ∈ clauses, clause.Proper) {part : Part}
    (member : part ∈ Clause.allParts clauses) {p : Protocol} (own : part.protocol? = some p) :
    ∃ ports, .protocol p ports ∈ clauses := by
  obtain ⟨clause, inside, isPart⟩ := List.mem_flatMap.1 member
  cases clause with
  | protocol q ports =>
    have same : q = p := by
      rcases List.mem_cons.1 isPart with rfl | isPort
      · exact Option.some.inj own
      · obtain ⟨port, -, rfl⟩ := List.mem_map.1 isPort
        exact Option.some.inj own
    exact ⟨ports, same ▸ inside⟩
  | value c text =>
    obtain rfl : part = .condition c (some text) := List.mem_singleton.1 isPart
    have fine := proper _ inside
    rcases Condition.mem_valued.1 fine with rfl | rfl | rfl | rfl | rfl <;> simp [Part.protocol?] at own
  | jump a target? =>
    obtain rfl : part = .action a target? := List.mem_singleton.1 isPart
    simp [Part.protocol?] at own

theorem mem_of_forms {clauses : List Clause} (proper : ∀ clause ∈ clauses, clause.Proper) {ps : List Part}
    (sublist : (ps.map Part.form).Sublist ((Clause.allParts clauses).map Part.form)) {part : Part} (member : part ∈ ps)
    {p : Protocol} (own : part.protocol? = some p) : ∃ ports, .protocol p ports ∈ clauses := by
  obtain ⟨other, inside, same⟩ := List.mem_map.1 (sublist.subset (List.mem_map_of_mem member))
  refine mem_allParts_protocol? proper inside ?_
  rw [← Part.protocol?_form, same, Part.protocol?_form, own]

theorem ports_of_forms {p : Protocol} {ports : List (Side × String)} {ps : List Part}
    (sublist : (ps.map Part.form).Sublist ((Flag.portParts p ports).map Part.form)) :
    ∃ kept, ps = Flag.portParts p kept ∧ (kept.map Prod.fst).Sublist (ports.map Prod.fst) := by
  induction ports generalizing ps with
  | nil =>
    obtain rfl : ps = [] := by simpa [Flag.portParts] using sublist
    exact ⟨[], rfl, .refl _⟩
  | cons port ports ih =>
    obtain ⟨side, text⟩ := port
    have spread : (Flag.portParts p ((side, text) :: ports)).map Part.form =
        .condition (.port side p) (some "") :: (Flag.portParts p ports).map Part.form := rfl
    rw [spread, List.sublist_cons_iff] at sublist
    rcases sublist with fewer | ⟨others, start, fewer⟩
    · obtain ⟨kept, rfl, sides⟩ := ih fewer
      exact ⟨kept, rfl, sides.cons side⟩
    · obtain ⟨first, rest, rfl, form, rfl⟩ := List.map_eq_cons_iff.1 start
      obtain ⟨kept, rfl, sides⟩ := ih fewer
      obtain ⟨value, rfl⟩ := Part.eq_of_form_condition form
      exact ⟨(side, value) :: kept, rfl, sides.cons_cons side⟩

/-- Parts with forms of a clause are none, or those of a clause of the same flag. -/
theorem clause_of_forms {clause : Clause} (proper : clause.Proper) {ps : List Part}
    (sublist : (ps.map Part.form).Sublist (clause.parts.map Part.form)) (anchored : Anchored ps) :
    ps = [] ∨ ∃ kept : Clause, kept.parts = ps ∧ kept.Proper ∧ kept.flag = clause.flag := by
  cases clause with
  | protocol p ports =>
    have spread : (Clause.protocol p ports).parts.map Part.form =
        .condition (.protocol p) none :: (Flag.portParts p ports).map Part.form := rfl
    rw [spread, List.sublist_cons_iff] at sublist
    rcases sublist with fewer | ⟨others, start, fewer⟩
    · obtain ⟨kept, rfl, -⟩ := ports_of_forms fewer
      cases kept with
      | nil => exact .inl rfl
      | cons port kept =>
        have there := anchored (.condition (.port port.1 p) (some port.2)) (by simp [Flag.portParts]) p rfl
        simp [Flag.portParts] at there
    · obtain ⟨first, rest, rfl, form, rfl⟩ := List.map_eq_cons_iff.1 start
      obtain ⟨kept, rfl, sides⟩ := ports_of_forms fewer
      obtain rfl := Part.eq_of_form_condition_none form
      exact .inr ⟨.protocol p kept, rfl, ⟨proper.1, proper.2.sublist sides⟩, rfl⟩
  | value c text =>
    have spread : (Clause.value c text).parts.map Part.form = [.condition c (some "")] := rfl
    rw [spread, List.sublist_singleton] at sublist
    rcases sublist with none | one
    · exact .inl (List.map_eq_nil_iff.1 none)
    · obtain ⟨part, rfl, form⟩ := List.map_eq_singleton_iff.1 one
      obtain ⟨value, rfl⟩ := Part.eq_of_form_condition form
      exact .inr ⟨.value c value, rfl, proper, by cases c <;> rfl⟩
  | jump a target? =>
    have spread : (Clause.jump a target?).parts.map Part.form = [(Part.action a target?).form] := rfl
    rw [spread, List.sublist_singleton] at sublist
    rcases sublist with none | one
    · exact .inl (List.map_eq_nil_iff.1 none)
    · obtain ⟨part, rfl, form⟩ := List.map_eq_singleton_iff.1 one
      obtain ⟨value?, rfl, same⟩ := Part.eq_of_form_action form
      exact .inr ⟨.jump a value?, rfl, same.trans proper, rfl⟩

/-- Parts with forms of clauses that still have the protocols of their ports are those of clauses again. -/
theorem clauses_of_forms {clauses : List Clause} (proper : ∀ clause ∈ clauses, clause.Proper)
    (single : (clauses.map Clause.flag).Nodup) {ps : List Part}
    (sublist : (ps.map Part.form).Sublist ((Clause.allParts clauses).map Part.form)) (anchored : Anchored ps) :
    ∃ kept, Clause.allParts kept = ps ∧ (∀ clause ∈ kept, clause.Proper) ∧
      (kept.map Clause.flag).Sublist (clauses.map Clause.flag) := by
  induction clauses generalizing ps with
  | nil =>
    obtain rfl : ps = [] := by simpa [Clause.allParts] using sublist
    exact ⟨[], rfl, by simp, .refl _⟩
  | cons clause clauses ih =>
    obtain ⟨fresh, single⟩ := List.nodup_cons.1 single
    have own : clause.Proper := proper clause (by simp)
    have later : ∀ other ∈ clauses, other.Proper := fun other member => proper other (by simp [member])
    rw [Clause.allParts_cons, List.map_append, List.sublist_append_iff] at sublist
    obtain ⟨_, _, split, inClause, inOthers⟩ := sublist
    obtain ⟨first, second, rfl, rfl, rfl⟩ := List.map_eq_append_iff.1 split
    -- Parts of one protocol are never on both sides, since flags are claimed once.
    have left : ∀ part ∈ first, ∀ p, part.protocol? = some p → clause.flag = .ofProtocol p := by
      intro part member p isOwn
      have alone : ∀ other ∈ [clause], other.Proper := by simpa using own
      obtain ⟨ports, inside⟩ := mem_of_forms alone (by simpa [Clause.allParts] using inClause) member isOwn
      rw [← List.mem_singleton.1 inside]
      rfl
    have right : ∀ part ∈ second, ∀ p, part.protocol? = some p → clause.flag ≠ .ofProtocol p := by
      intro part member p isOwn same
      obtain ⟨ports, inside⟩ := mem_of_forms later inOthers member isOwn
      exact fresh (same ▸ List.mem_map_of_mem inside)
    have anchoredFirst : Anchored first := by
      intro part member p isOwn
      rcases List.mem_append.1 (anchored part (List.mem_append_left _ member) p isOwn) with here | there
      · exact here
      · exact absurd (left part member p isOwn) (right _ there p rfl)
    have anchoredSecond : Anchored second := by
      intro part member p isOwn
      rcases List.mem_append.1 (anchored part (List.mem_append_right _ member) p isOwn) with here | there
      · exact absurd (left _ here p rfl) (right part member p isOwn)
      · exact there
    obtain ⟨kept, rfl, keptProper, flags⟩ := ih later single inOthers anchoredSecond
    rcases clause_of_forms own inClause anchoredFirst with rfl | ⟨changed, rfl, changedProper, sameFlag⟩
    · exact ⟨kept, rfl, keptProper, flags.cons _⟩
    · refine ⟨changed :: kept, rfl, by simpa using ⟨changedProper, keptProper⟩, ?_⟩
      rw [List.map_cons, List.map_cons, sameFlag]
      exact flags.cons_cons _

/-! ## The header of a checked rule -/

/-- The first part is kept if no other word in front could take its place. -/
theorem keeps_first {part : Part} {kept following : List Part} {later more : List String} {word : String}
    (sublist : kept.Sublist (part :: following)) (split : kept.flatMap Part.words ++ later = word :: more)
    (others : ∀ other ∈ following, other.words.head? ≠ some word) (apart : later.head? ≠ some word) :
    ∃ rest, kept = part :: rest ∧ rest.Sublist following := by
  rcases List.sublist_cons_iff.1 sublist with fewer | ⟨rest, rfl, fewer⟩
  · cases kept with
    | nil => simp [show later = word :: more from split] at apart
    | cons other rest =>
      obtain ⟨first, words, spread⟩ := List.exists_cons_of_ne_nil other.words_ne_nil
      have same : first = word := by
        rw [List.flatMap_cons, spread] at split
        exact (List.cons.inj split).1
      exact absurd (by rw [spread, same]; rfl) (others other (fewer.subset (by simp)))
  · exact ⟨rest, rfl, fewer⟩

/-- The words that the parts behind a header start with. -/
def flagWords : List String := ["-p", "--sport", "--dport", "-s", "-d", "-i", "-o", "--state", "-j"]

theorem keyword_mem_flagWords (c : Condition) : c.spelling.keyword ∈ flagWords := by
  rcases c with p | ⟨side, p⟩ | side | direction | _
  · simp [Condition.spelling, Protocol.flag, flagWords]
  · cases side <;> simp [Condition.spelling, flagWords]
  · cases side <;> simp [Condition.spelling, flagWords]
  · cases direction <;> simp [Condition.spelling, flagWords]
  · simp [Condition.spelling, flagWords]

theorem lead_mem_flagWords (flag : Flag) : flag.lead.keyword ∈ flagWords := by
  unfold Flag.lead leadOf
  split
  · exact keyword_mem_flagWords _
  · decide

/-- A header whose words are read as a whole one has lost no part. -/
theorem eq_headerParts {table : Table} {command : Command} {chain : Chain} {kept : List Part} {later : List String}
    (sublist : kept.Sublist (headerParts table command chain)) (leads : ∀ word ∈ later.head?, word ∈ flagWords)
    {flag name word : String} {named : Chain} {more : List String} {other : Command}
    (split : kept.flatMap Part.words ++ later = "iptables" :: flag :: name :: word :: named.name :: more)
    (spells : Table.flag.accepts flag = true) (accepts : other.spelling.accepts word = true) :
    kept = headerParts table command chain := by
  have unlike {text : String} (differs : text ∉ flagWords) : later.head? ≠ some text :=
    fun head => differs (leads text head)
  -- Word by word, only the part itself can have written the word that is read in its place.
  have start := keeps_first sublist split (by cases table <;> cases command <;> cases chain <;> decide)
    (unlike (by decide))
  obtain ⟨kept, rfl, behindStart⟩ := start
  have split : kept.flatMap Part.words ++ later = flag :: name :: word :: named.name :: more := (List.cons.inj split).2
  have isFlag : flag ∈ ["-t", "--table"] := Spelling.accepts_iff.1 spells
  have tableKept := keeps_first behindStart split
    (by
      simp only [List.mem_cons, List.not_mem_nil, or_false] at isFlag
      rcases isFlag with rfl | rfl <;> cases command <;> cases chain <;> decide)
    (by
      simp only [List.mem_cons, List.not_mem_nil, or_false] at isFlag
      rcases isFlag with rfl | rfl <;> exact unlike (by decide))
  obtain ⟨kept, rfl, behindTable⟩ := tableKept
  have split : kept.flatMap Part.words ++ later = word :: named.name :: more :=
    (List.cons.inj (List.cons.inj split).2).2
  have isCommand : word ∈ ["-A", "--append", "-I", "--insert"] := by
    have spelled := Spelling.accepts_iff.1 accepts
    cases other <;> simp [Command.spelling] at spelled ⊢ <;> grind
  have commandKept := keeps_first behindTable split
    (by
      simp only [List.mem_cons, List.not_mem_nil, or_false] at isCommand
      rcases isCommand with rfl | rfl | rfl | rfl <;> cases chain <;> decide)
    (by
      simp only [List.mem_cons, List.not_mem_nil, or_false] at isCommand
      rcases isCommand with rfl | rfl | rfl | rfl <;> exact unlike (by decide))
  obtain ⟨kept, rfl, behindCommand⟩ := commandKept
  have split : kept.flatMap Part.words ++ later = named.name :: more := (List.cons.inj split).2
  obtain ⟨kept, rfl, nothing⟩ := keeps_first behindCommand split (by simp) (unlike (by cases named <;> decide))
  obtain rfl : kept = [] := List.sublist_nil.1 nothing
  rfl

/-! ## What a check reads -/

theorem isBehind_of_mem {clause : Clause} {part : Part} (member : part ∈ clause.parts) : part.IsBehind := by
  cases clause with
  | protocol p ports =>
    rcases List.mem_cons.1 member with rfl | isPort
    · trivial
    · obtain ⟨port, -, rfl⟩ := List.mem_map.1 isPort
      trivial
  | value c text =>
    obtain rfl := List.mem_singleton.1 member
    trivial
  | jump a target? =>
    obtain rfl := List.mem_singleton.1 member
    trivial

theorem isWord_keyword {part : Part} (behind : part.IsBehind) : ∀ word ∈ part.keyword, IsWord word := by
  cases part with
  | condition c given? =>
    show ∀ word ∈ c.keyword, IsWord word
    rcases c with p | ⟨side, p⟩ | side | direction | _
    · cases p <;> decide
    · cases side <;> cases p <;> decide
    · cases side <;> decide
    · cases direction <;> decide
    · decide
  | action a given? =>
    show ∀ word ∈ a.keyword, IsWord word
    rcases a with _ | _ | side
    · decide
    · decide
    · cases side <;> decide
  | _ => exact behind.elim

/-- The parts of a checked rule whose values are words and whose ports have their protocols: a whole header and
    readable clauses. -/
theorem Descends.checked {rule : Rule} {front : List Part} {clauses : List Clause} (h : Descends rule front clauses)
    (words : WordValued rule.parts) (anchored : Anchored rule.parts) (checked : rule.checkTotal.1 = true) :
    ∃ kept, rule.parts = front ++ Clause.allParts kept ∧ Clause.Fits kept stockFlags ∧
      (∀ clause ∈ kept, clause.Readable) ∧ front.length = 4 ∧
      Token.texts (Token.scan rule.text) = front.flatMap Part.words ++ Clause.allWords kept := by
  have complete := (Rule.checkTotal_iff rule h.grammar_eq).1 checked
  obtain ⟨first, later, split, inFront, inClauses⟩ := h.split
  obtain ⟨table, command, chain, ahead⟩ := h.leads.isPrefix
  have anchoredLater : Anchored later := by
    intro part member p isOwn
    have there := anchored part (split ▸ List.mem_append_right first member) p isOwn
    rw [split, List.mem_append] at there
    refine there.resolve_left fun inFirst => ?_
    have inside := ahead.subset (inFront.subset inFirst)
    simp [headerParts] at inside
  obtain ⟨kept, rfl, proper, flags⟩ := clauses_of_forms (fun clause member => h.fits.proper clause member) h.fits.single
    inClauses anchoredLater
  have fits : Clause.Fits kept stockFlags :=
    ⟨proper, h.fits.single.sublist flags, fun clause member => (proper clause member).flag_mem⟩
  have written : Token.texts (Token.scan rule.text) = first.flatMap Part.words ++ Clause.allWords kept := by
    rw [texts_scan_text_of_isWord fun part member word isWord => ?_, split, List.flatMap_append,
      Clause.flatMap_words_allParts]
    rcases List.mem_append.1 (split ▸ member) with inFirst | inLater
    · exact isWord_headerParts (ahead.subset (inFront.subset inFirst)) word isWord
    · rcases List.mem_append.1 isWord with isKeyword | isValue
      · obtain ⟨clause, -, own⟩ := List.mem_flatMap.1 inLater
        exact isWord_keyword (isBehind_of_mem own) word isKeyword
      · exact words part member word (Option.mem_toList.1 isValue)
  have leads : ∀ word ∈ (Clause.allWords kept).head?, word ∈ flagWords := by
    intro word head
    cases kept with
    | nil => simp [Clause.allWords] at head
    | cons clause kept =>
      obtain ⟨others, start⟩ := (proper clause (by simp)).words_eq_cons
      rw [Clause.allWords_cons, start] at head
      exact Option.some.inj head ▸ lead_mem_flagWords clause.flag
  obtain ⟨flag, name, word, named, more, typed, spells, other, accepts⟩ := words_of_whole (covered_of_complete complete)
  have whole := eq_headerParts (inFront.trans ahead.sublist) leads (written.symm.trans typed) spells accepts
  have same : first = front := inFront.eq_of_length_le (whole ▸ ahead.length_le)
  subst same
  have length : first.length = 4 := by rw [whole]; rfl
  have leadsHere : Leads header rule.context first := h.leads.of_table? (by rw [h.resolved, Context.table?_settled])
  exact ⟨kept, split, fits, readable_of_complete leadsHere length fits written complete, length, written⟩

theorem isWord_of_plain {word : String} (h : IsWord (Port.plain word)) : IsWord word := by
  cases number : Port.number? word with
  | none => rwa [Port.plain_of_none number] at h
  | some port => exact Clause.isWord_of_number? (by simp [number])

theorem value?_plain (part : Part) : part.plain.value? = part.value? ∨ part.plain.value? = part.value?.map Port.plain := by
  rcases part.plain_cases with same | ⟨side, p, text, rfl⟩
  · exact .inl (by rw [same])
  · exact .inr rfl

theorem protocol?_plain (part : Part) : part.plain.protocol? = part.protocol? := by
  rcases part.plain_cases with same | ⟨side, p, text, rfl⟩
  · rw [same]
  · rfl

theorem eq_of_plain_protocol {part : Part} {p : Protocol} (h : part.plain = .condition (.protocol p) none) :
    part = .condition (.protocol p) none := by
  rcases part.plain_cases with same | ⟨side, q, text, rfl⟩
  · rw [← same, h]
  · simp [Part.plain] at h

/-- If the rule that a check reads has the edited parts, up to order and needless zeros, their values are words and
    every port has its protocol. -/
theorem faithful_of_perm {rule : Rule} (perm : (new stock rule.context rule.text).parts.Perm (rule.parts.map Part.plain)) :
    WordValued rule.parts ∧ Anchored rule.parts := by
  obtain ⟨front, clauses, parsed⟩ := parsed_new rule.context rule.text
  rw [parsed.parts_eq] at perm
  have read {part : Part} (member : part ∈ rule.parts) : part.plain ∈ front ++ Clause.allParts clauses :=
    perm.symm.subset (List.mem_map_of_mem member)
  constructor
  · intro part member value given
    have isWord {word : String} (own : word ∈ part.plain.value?) : IsWord word :=
      parsed.toShape.isWord (read member) word (List.mem_append_right _ (Option.mem_toList.2 own))
    rcases value?_plain part with same | plain
    · exact isWord (same ▸ given)
    · exact isWord_of_plain (isWord (plain ▸ Option.mem_map_of_mem Port.plain given))
  · intro part member p isOwn
    have own : part.plain.protocol? = some p := (protocol?_plain part).trans isOwn
    rcases List.mem_append.1 (read member) with inFront | inClauses
    · obtain ⟨table, command, chain, ahead⟩ := parsed.leads.isPrefix
      rcases mem_headerParts.1 (ahead.subset inFront) with same | same | same | same <;> simp [same, Part.protocol?] at own
    · obtain ⟨ports, inside⟩ := mem_allParts_protocol? parsed.fits.proper inClauses own
      have there : Part.condition (.protocol p) none ∈ front ++ Clause.allParts clauses :=
        List.mem_append_right _ (List.mem_flatMap.2 ⟨_, inside, List.mem_cons_self⟩)
      obtain ⟨other, isPart, same⟩ := List.mem_map.1 (perm.subset there)
      exact eq_of_plain_protocol same ▸ isPart

/-- A rule that its check finds whole is read as it was edited, up to the order of its parts and needless zeros,
    exactly if every value is a word and every port has its protocol; then both have the same verdicts. -/
theorem checked_iff {rule : Rule} (revised : Revised stock rule) (checked : rule.checkTotal.1 = true) :
    let fresh := new stock rule.context rule.text
    (fresh.parts.Perm (rule.parts.map Part.plain) ↔ WordValued rule.parts ∧ Anchored rule.parts) ∧
      (WordValued rule.parts → Anchored rule.parts → ∀ packet, rule.run? packet = fresh.run? packet) := by
  intro fresh
  obtain ⟨front, clauses, origin⟩ := revised.descends
  have read (words : WordValued rule.parts) (anchored : Anchored rule.parts) :
      ∃ kept, (∀ clause ∈ kept, clause.Proper) ∧ rule.parts = front ++ Clause.allParts kept ∧
        fresh.parts = front ++ Clause.allParts (kept.map Clause.tidy) := by
    obtain ⟨kept, split, fits, readable, whole, written⟩ := origin.checked words anchored checked
    obtain ⟨meaning, -, -⟩ := parse_words origin.leads readable fits (fun _ => whole) written
    exact ⟨kept, fits.proper, split, by rw [parts, (new_stock rule.context rule.text).1, meaning]⟩
  refine ⟨⟨faithful_of_perm, ?_⟩, fun words anchored packet => ?_⟩
  · rintro ⟨words, anchored⟩
    obtain ⟨kept, proper, split, meaning⟩ := read words anchored
    obtain ⟨table, command, chain, ahead⟩ := origin.leads.isPrefix
    have plain : front.map Part.plain = front := by
      refine (List.map_congr_left fun part member => ?_).trans (List.map_id front)
      rcases mem_headerParts.1 (ahead.subset member) with rfl | rfl | rfl | rfl <;> rfl
    rw [meaning, split, List.map_append, plain]
    exact (Clause.allParts_tidy_perm proper).append_left front
  · obtain ⟨kept, proper, split, meaning⟩ := read words anchored
    rw [run?, run?, meaning, split]
    exact (Clause.run?_tidy front proper packet).symm

/-- A port that was given a needless zero tests packets as the rule that the check reads. -/
theorem checked_port_with_zero :
    ∃ edited, (new stock .unknown "iptables -t FILTER -A INPUT -p tcp --dport 22 -j DROP").setValue? 5 "080" = some edited ∧
      edited.checkTotal.1 = true ∧
      ∀ packet, edited.run? packet = (new stock edited.context edited.text).run? packet := by
  refine ⟨Option.get _ (by decide +kernel), (Option.some_get _).symm, by decide +kernel, ?_⟩
  exact (checked_iff (.set (.new .unknown _) (Option.some_get _).symm) (by decide +kernel)).2 (by decide +kernel)
    (by decide +kernel)

/-- A rule that its check finds whole can differ from what the check reads: without its protocol a port belongs to
    another one, and a value with blanks in it is several words. -/
theorem checked_differs :
    (∃ edited, (new stock .unknown "iptables -t FILTER -A INPUT -p udp -p tcp --sport 80 -j DROP").deleteElement? 5 =
        some edited ∧ edited.checkTotal.1 = true ∧
      let packet := Packet.create .udp [] [] [("sport", .int 80)]
      edited.run? packet = none ∧ (new stock edited.context edited.text).run? packet = some .drop) ∧
    ∃ edited, (new stock .unknown "iptables -t FILTER -A INPUT -i eth0 -j DROP").setValue? 4 "eth0 -s 10.0.0.1" =
        some edited ∧ edited.checkTotal.1 = true ∧
      let packet := Packet.empty.set Packet.metaLayer "in_interface" (.text "eth0 -s 10.0.0.1")
      edited.run? packet = some .drop ∧ (new stock edited.context edited.text).run? packet = none := by
  constructor
  · refine ⟨Option.get _ (by decide +kernel), (Option.some_get _).symm, ?_⟩
    decide +kernel
  · refine ⟨Option.get _ (by decide +kernel), (Option.some_get _).symm, ?_⟩
    decide +kernel

end Rule

end PacketFilter
