import PacketFilter.Proofs.Rule.RoundTrip
import PacketFilter.Proofs.Store.Saving

/-!
# Rules that name another chain

A rule that is read for a slot can name another chain in its text. It is rejected, and skipped in a file, if the
table of the slot holds that chain; otherwise the match of the text ends in front of the name and the rule stays in
the slot that it is read for. Main statements: `Rule.stays_iff_of_namesChain` and `other_chain_rejected_iff`.
-/

namespace PacketFilter

open Grammar

/-! ## Texts that name a chain -/

/-- Words start like a rule of a table, and the word behind the command is the name of a chain. -/
def NamesChain (words : List String) (chain : Chain) : Prop :=
  ∃ flag name command more, words = "iptables" :: flag :: name :: command :: chain.name :: more ∧
    Table.flag.accepts flag = true ∧ (Table.ofName? name).isSome = true ∧
      ∃ known : Command, known.spelling.accepts command = true

/-- The header of a rule that names a chain resolves it in a known table that holds it, and only then. -/
theorem context_walk_of_namesChain {table : Table} {context : Context} (known : context.table? = some table)
    {tokens : List Token} {chain : Chain} (names : NamesChain (Token.texts tokens) chain) :
    (walk header context tokens).context = if table.Holds chain then ⟨some table, some chain⟩ else context := by
  obtain ⟨flag, name, command, more, shape, spells, ofTable, accepted, accepts⟩ := names
  obtain ⟨first, behind, rfl, firstText, fromFlag⟩ := Token.texts_eq_cons_iff.1 shape
  obtain ⟨second, behind, rfl, rfl, fromName⟩ := Token.texts_eq_cons_iff.1 fromFlag
  obtain ⟨third, behind, rfl, rfl, fromCommand⟩ := Token.texts_eq_cons_iff.1 fromName
  obtain ⟨fourth, behind, rfl, rfl, fromChain⟩ := Token.texts_eq_cons_iff.1 fromCommand
  obtain ⟨fifth, behind, rfl, fifthText, -⟩ := Token.texts_eq_cons_iff.1 fromChain
  obtain ⟨typed, ofTable⟩ := Option.isSome_iff_exists.1 ofTable
  have found : (Command.all.find? fun command => command.spelling.accepts fourth.text).isSome :=
    List.find?_isSome.2 ⟨accepted, by cases accepted <;> decide, accepts⟩
  obtain ⟨command, found⟩ := Option.isSome_iff_exists.1 found
  have listed : typed ∈ Table.all := by cases typed <;> decide
  have same : Component.named typed context = context := by
    rw [Component.named, known]
    exact Context.eq_of_fields known.symm rfl
  by_cases holds : table.Holds chain <;>
    simp [walk, header, Component.fit?, Component.tableFit?, Component.commandFit?, Component.chainFit?, firstText,
      spells, ofTable, listed, found, fifthText, Chain.ofName?_name, same, known, holds]

theorem Rule.context_of_namesChain {raw : String} {chain : Chain} (names : NamesChain (Token.texts (Token.scan raw)) chain)
    (slot : Slot) :
    (Rule.new stock (.ofSlot slot) raw).context =
      if slot.table.Holds chain then ⟨some slot.table, some chain⟩ else .ofSlot slot := by
  have settled : (Context.ofSlot slot).settled = .ofSlot slot := Context.settled_of_holds rfl rfl slot.holds
  rw [(new_stock (.ofSlot slot) raw).2, settled, (parse_stock (.ofSlot slot) (Token.scan raw)).1]
  exact context_walk_of_namesChain rfl names

/-- A rule that names another chain than that of its slot stays there if the table does not hold that chain. -/
theorem Rule.stays_iff_of_namesChain {raw : String} {slot : Slot} {chain : Chain}
    (names : NamesChain (Token.texts (Token.scan raw)) chain) (other : chain ≠ slot.chain) :
    (Rule.new stock (.ofSlot slot) raw).context = .ofSlot slot ↔ ¬ slot.table.Holds chain := by
  rw [context_of_namesChain names]
  by_cases holds : slot.table.Holds chain
  · simp [holds, Context.ofSlot, other]
  · simp [holds]

/-! ## The line of a rule -/

theorem savedLine_of_namesChain {text : String} {chain : Chain} (names : NamesChain (Token.texts (Token.scan text)) chain) :
    SavedLine.ofText text = .rule (Text.trim text) := by
  obtain ⟨flag, name, command, more, shape, -⟩ := names
  rw [← Token.texts_scan_trim] at shape
  unfold SavedLine.ofText
  cases spread : (Text.trim text).toList with
  | nil => simp [Token.scan, spread, Token.scanFrom, Token.ofWord] at shape
  | cons c cs =>
    by_cases hash : c = '#'
    · subst hash
      obtain ⟨run, others, words⟩ := Token.texts_scan_eq_cons (by rw [spread]; rfl) (by decide : Text.isBlank '#' = false)
      rw [words] at shape
      have first : '#' :: run = "iptables".toList := by
        rw [← (List.cons_eq_cons.1 shape).1, String.toList_ofList]
      simp at first
    · simp [spread, hash]

/-! ## Files with one line more -/

/-- The slot of the last header among lines, or else the one that is in force above them. -/
def slotBelow (header? : Option Slot) : List String → Option Slot
  | [] => header?
  | text :: texts =>
    match SavedLine.ofText text with
    | .header header => slotBelow ((Header.parse 0 header).toOption.or header?) texts
    | _ => slotBelow header? texts

theorem toOption_parse (line : Nat) (text : String) : (Header.parse line text).toOption = (Header.parse 0 text).toOption := by
  unfold Header.parse
  repeat' split
  all_goals rfl

/-- What is staged for lines and further ones: the latter are below the headers of the former. -/
theorem stage_append (grammar : Grammar) (header? : Option Slot) (line : Nat) (front back : List String) :
    stage grammar header? line (front ++ back) = (stage grammar header? line front).bind fun first =>
      (stage grammar (slotBelow header? front) (line + front.length) back).map (first ++ ·) := by
  induction front generalizing header? line with
  | nil =>
    show stage grammar header? line back = (stage grammar header? line back).map ([] ++ ·)
    cases stage grammar header? line back <;> rfl
  | cons text front ih =>
    have position : line + (text :: front).length = line + 1 + front.length := by
      rw [List.length_cons]
      omega
    rw [List.cons_append, slotBelow, position]
    cases kind : SavedLine.ofText text with
    | blank =>
      rw [stage_blank _ _ _ _ kind, stage_blank _ _ _ _ kind]
      exact ih header? (line + 1)
    | header header =>
      rw [stage_header _ _ _ _ kind, stage_header _ _ _ _ kind]
      simp only [← toOption_parse line header]
      cases Header.parse line header with
      | error error => rfl
      | ok slot => exact ih (some slot) (line + 1)
    | rule raw =>
      rw [stage_rule _ _ _ _ kind, stage_rule _ _ _ _ kind, ih header? (line + 1)]
      cases stage grammar header? (line + 1) front with
      | error error => rfl
      | ok first =>
        show Except.map _ (Except.map _ _) = Except.map _ _
        cases stage grammar (slotBelow header? front) (line + 1 + front.length) back <;> rfl

/-- A line that is read as a rule adds that rule to those of a file where the line is blank. -/
theorem stage_blanked (grammar : Grammar) (front back : List String) {text raw : String}
    (kind : SavedLine.ofText text = .rule raw) :
    ∃ around : Except LoadError (List Staged × List Staged),
      stage grammar none 1 (front ++ "" :: back) = around.map (fun pair => pair.1 ++ pair.2) ∧
        stage grammar none 1 (front ++ text :: back) = around.map fun pair =>
          pair.1 ++ .ofText grammar (slotBelow none front) (1 + front.length) raw :: pair.2 := by
  refine ⟨(stage grammar none 1 front).bind fun first =>
    (stage grammar (slotBelow none front) (1 + front.length + 1) back).map fun rest => (first, rest), ?_, ?_⟩
  · rw [stage_append, stage_blank _ _ _ _ (by decide : SavedLine.ofText "" = .blank)]
    cases stage grammar none 1 front with
    | error error => rfl
    | ok first =>
      simp only [Except.bind]
      cases stage grammar (slotBelow none front) (1 + front.length + 1) back <;> rfl
  · rw [stage_append, stage_rule _ _ _ _ kind]
    cases stage grammar none 1 front with
    | error error => rfl
    | ok first =>
      simp only [Except.bind]
      cases stage grammar (slotBelow none front) (1 + front.length + 1) back <;> rfl

namespace Store

/-- A rule that belongs elsewhere is skipped. -/
theorem placeAll_skip (store : Store) {one : Staged} (skipped : one.landing? = none) (first rest : List Staged) :
    store.placeAll (first ++ one :: rest) = store.placeAll (first ++ rest) := by
  induction first generalizing store with
  | nil => simp [placeAll, place?_eq, skipped]
  | cons other first ih =>
    rw [List.cons_append, List.cons_append, placeAll, placeAll]
    simp only [ih]

section

variable {store : Store} {stream blanked : ByteStream} {front back : List String} {text raw : String}

/-- A line whose rule belongs elsewhere is read like a blank one. -/
theorem load_eq_of_skipped (lines : (Lines.ofStream stream).texts = front ++ text :: back)
    (blankedLines : Lines.ofStream blanked = ⟨front ++ "" :: back, (Lines.ofStream stream).error?⟩)
    (kind : SavedLine.ofText text = .rule raw)
    (skipped : ∀ line, (Staged.ofText store.grammar (slotBelow none front) line raw).landing? = none) :
    store.load (.stream stream) = store.load (.stream blanked) := by
  obtain ⟨around, without, added⟩ := stage_blanked store.grammar front back kind
  rw [load_stream, load_stream, lines, blankedLines, without, added]
  cases around with
  | error error => rfl
  | ok pair => simp only [Except.map, Except.bind, placeAll_skip store (skipped _)]

/-- A line whose rule belongs to a slot adds one rule there. -/
theorem load_of_lands (lines : (Lines.ofStream stream).texts = front ++ text :: back)
    (blankedLines : Lines.ofStream blanked = ⟨front ++ "" :: back, (Lines.ofStream stream).error?⟩)
    (kind : SavedLine.ofText text = .rule raw) {slot : Slot}
    (lands : ∀ line, (Staged.ofText store.grammar (slotBelow none front) line raw).landing? = some slot)
    {without : Loaded} (read : store.load (.stream blanked) = .ok without) :
    ∃ loaded, store.load (.stream stream) = .ok loaded ∧ loaded.count = without.count + 1 ∧
      (loaded.store.rules slot).length = (without.store.rules slot).length + 1 := by
  obtain ⟨around, blank, added⟩ := stage_blanked store.grammar front back kind
  rw [load_stream, blankedLines, blank] at read
  rw [load_stream, lines, added]
  cases around with
  | error error => cases read
  | ok pair =>
    cases failed : (Lines.ofStream stream).error? with
    | some error =>
      rw [failed] at read
      cases read
    | none =>
      rw [failed] at read
      obtain rfl := Except.ok.inj read
      refine ⟨_, rfl, ?_, ?_⟩
      · simp [count_placeAll, lands, Nat.add_assoc]
      · simp [rules_placeAll, lands, Nat.add_assoc]

end

/-- A text that names another chain than that of a slot is rejected there, and skipped in a file below the header of
    the slot, exactly if the table of the slot holds the chain that it names. -/
theorem other_chain_rejected_iff {store : Store} (usual : store.grammar = stock) {slot : Slot} {text : String}
    {named : Chain} (names : NamesChain (Token.texts (Token.scan text)) named) (other : named ≠ slot.chain) :
    (store.append? (store.createRule text slot.table slot.chain) slot.table slot.chain = none ↔
      slot.table.Holds named) ∧
      ∀ stream blanked front back, (Lines.ofStream stream).texts = front ++ text :: back →
        Lines.ofStream blanked = ⟨front ++ "" :: back, (Lines.ofStream stream).error?⟩ →
        slotBelow none front = some slot →
          (slot.table.Holds named → store.load (.stream stream) = store.load (.stream blanked)) ∧
          (¬ slot.table.Holds named → ∀ without, store.load (.stream blanked) = .ok without →
            ∃ loaded, store.load (.stream stream) = .ok loaded ∧ loaded.count = without.count + 1 ∧
              (loaded.store.rules slot).length = (without.store.rules slot).length + 1) := by
  constructor
  · have stays := Rule.stays_iff_of_namesChain names other
    show (slotFor? (Rule.new store.grammar (.ofSlot slot) text) slot.table slot.chain).bind _ = none ↔ _
    rw [slotFor?_slot, usual]
    by_cases holds : slot.table.Holds named
    · simp [stays, holds]
    · simp [stays, holds]
  · intro stream blanked front back lines blankedLines below
    have kind := savedLine_of_namesChain names
    rw [← Token.texts_scan_trim] at names
    have stays := Rule.stays_iff_of_namesChain names other
    constructor
    · intro holds
      refine load_eq_of_skipped lines blankedLines kind fun line => ?_
      rw [below, usual, landing?_ofText, if_neg fun own => stays.1 own holds]
    · intro holds without read
      refine load_of_lands lines blankedLines kind (fun line => ?_) read
      rw [below, usual, landing?_ofText, if_pos (stays.2 holds)]

/-- A rule of FILTER.FORWARD is not stored in FILTER.INPUT, and a file is read without it. -/
theorem forward_rule_rejected :
    let store := Store.new stock
    let text := "iptables --table filter -I FORWARD -j DROP"
    store.append? (store.createRule text .filter .input) .filter .input = none ∧
      store.load (.stream (.ofText ("#FILTER.INPUT\n" ++ text ++ "\niptables -t FILTER -A INPUT -j DROP\n"))) =
        store.load (.stream (.ofText "#FILTER.INPUT\n\niptables -t FILTER -A INPUT -j DROP\n")) := by
  intro store text
  have names : NamesChain (Token.texts (Token.scan text)) .forward :=
    ⟨"--table", "filter", "-I", ["-j", "DROP"], by decide, by decide, by decide, .insert, by decide⟩
  have other : Chain.forward ≠ Slot.filterInput.chain := by decide
  obtain ⟨rejected, skipped⟩ := other_chain_rejected_iff (rfl : store.grammar = stock) names other
  refine ⟨rejected.2 (by decide), (skipped _ _ ["#FILTER.INPUT"] ["iptables -t FILTER -A INPUT -j DROP"] ?_ ?_ ?_).1
    (by decide)⟩
  · decide +kernel
  · decide +kernel
  · decide +kernel

/-- A rule of NAT.PREROUTING is stored in FILTER.INPUT, as FILTER has no chain of that name. -/
theorem prerouting_rule_accepted :
    let store := Store.new stock
    let text := "iptables -t NAT -A PREROUTING -j ACCEPT"
    NamesChain (Token.texts (Token.scan text)) .prerouting ∧ Chain.prerouting ≠ .input ∧
      (store.append? (store.createRule text .filter .input) .filter .input).isSome = true ∧
        (store.load (.stream (.ofText ("#FILTER.INPUT\n" ++ text ++ "\n")))).map (·.count) = .ok 1 := by
  intro store text
  refine ⟨⟨"-t", "NAT", "-A", ["-j", "ACCEPT"], by decide, by decide, by decide, .append, by decide⟩, by decide, ?_, ?_⟩
  · decide +kernel
  · decide +kernel

end Store

end PacketFilter
