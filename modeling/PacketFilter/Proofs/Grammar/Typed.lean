import PacketFilter.Proofs.Grammar.Stock

/-!
# Typed rules

The words that a rule can be typed as: those of a header, and for every flag one of its spellings with the words of
its value behind it. Main statements: `walk_of_isHeader`, a typed header is recognized as its parts, and
`isHeader_of_whole`, nothing else is.
-/

namespace PacketFilter

/-- The words that a flag of the stock grammar can be typed as, and what they mean. -/
inductive Part.SpelledAs : Part → List String → Prop where
  | protocol {p : Protocol} {flag name : String} (hasPorts : p.hasPorts = true)
      (spells : Protocol.flag.accepts flag = true) (names : p.isNamed name = true) :
      SpelledAs (.condition (.protocol p) none) [flag, name]
  | port {side : Side} {p : Protocol} {flag value : String} {number : UInt16}
      (spells : side.portFlag.accepts flag = true) (reads : Port.number? value = some number) :
      SpelledAs (.condition (.port side p) (some number.toNat.repr)) [flag, value]
  | value {c : Condition} {flag value : String} (valued : c ∈ Condition.valued)
      (spells : c.spelling.accepts flag = true) (accepted : c.accepts value = true) :
      SpelledAs (.condition c (some value)) [flag, value]
  | jump {a : Action} {flag : String} (bare : a.option? = none) (spells : Action.jump.accepts flag = true) :
      SpelledAs (.action a none) [flag, a.name]
  | redirect {a : Action} {flag option target : String} (needs : a.option? = some option)
      (spells : Action.jump.accepts flag = true) (literal : Target.isLiteral target = true) :
      SpelledAs (.action a (some target)) [flag, a.name, option, target]

/-- A flag as it is typed, with the words of its value. -/
structure FlagGroup where
  part : Part
  words : List String
  spelled : part.SpelledAs words

/-- The words of groups, one after the other. -/
def FlagGroup.allWords (groups : List FlagGroup) : List String := groups.flatMap words

@[simp] theorem FlagGroup.allWords_cons (group : FlagGroup) (groups : List FlagGroup) :
    allWords (group :: groups) = group.words ++ allWords groups := rfl

@[simp] theorem FlagGroup.allWords_append (front back : List FlagGroup) :
    allWords (front ++ back) = allWords front ++ allWords back := by
  simp [allWords]

/-- Words are a header: the program, a table, a command and a chain of the table. -/
def IsHeader (table : Table) (command : Command) (chain : Chain) (words : List String) : Prop :=
  table.Holds chain ∧ ∃ flag name word, words = ["iptables", flag, name, word, chain.name] ∧
    Table.flag.accepts flag = true ∧ Table.ofName? name = some table ∧ command.spelling.accepts word = true

namespace Grammar

theorem find?_command {command : Command} {word : String} (accepts : command.spelling.accepts word = true) :
    Command.all.find? (fun command => command.spelling.accepts word) = some command := by
  rw [Spelling.accepts_iff] at accepts
  cases command <;> simp only [Command.spelling, List.mem_cons, List.not_mem_nil, or_false] at accepts <;>
    rcases accepts with rfl | rfl <;> decide

/-- A typed header is recognized as its parts, unless another table is known. -/
theorem walk_of_isHeader {table : Table} {command : Command} {chain : Chain} {words more : List String}
    (typed : IsHeader table command chain words) {context : Context} (known : ∀ own ∈ context.table?, own = table)
    {tokens : List Token} (shape : Token.texts tokens = words ++ more) :
    let head := walk header context tokens
    head.covered = 4 ∧ parts head.elements = headerParts table command chain ∧ Token.texts head.rest = more ∧
      head.context = ⟨some table, some chain⟩ := by
  obtain ⟨holds, flag, name, word, rfl, spells, names, accepts⟩ := typed
  obtain ⟨first, behind, rfl, firstText, fromFlag⟩ := Token.texts_eq_cons_iff.1 shape
  obtain ⟨second, behind, rfl, rfl, fromName⟩ := Token.texts_eq_cons_iff.1 fromFlag
  obtain ⟨third, behind, rfl, rfl, fromCommand⟩ := Token.texts_eq_cons_iff.1 fromName
  obtain ⟨fourth, behind, rfl, rfl, fromChain⟩ := Token.texts_eq_cons_iff.1 fromCommand
  obtain ⟨fifth, behind, rfl, fifthText, left⟩ := Token.texts_eq_cons_iff.1 fromChain
  have left : Token.texts behind = more := left
  have listed : table ∈ Table.all := by cases table <;> decide
  have resolved : context.table?.getD table = table := by
    cases own : context.table? with
    | none => rfl
    | some other => exact known other own
  simp [walk, header, Component.fit?, Component.tableFit?, Component.commandFit?, Component.chainFit?, Component.named,
    resolved, firstText, spells, names, listed, find?_command accepts, fifthText, Chain.ofName?_name, holds, parts,
    headerParts, left]

/-- A whole header is typed as one. -/
theorem isHeader_of_whole {tokens : List Token} (whole : (walk header .unknown tokens).covered = 4) :
    ∃ table command chain words, IsHeader table command chain words ∧
      Token.texts tokens = words ++ Token.texts (walk header .unknown tokens).rest ∧
      parts (walk header .unknown tokens).elements = headerParts table command chain := by
  obtain ⟨leads, -, -⟩ := walk_leads header_fixed .unknown tokens
  obtain ⟨table, command, chain, ahead⟩ := leads.isPrefix
  have same := ahead.eq_of_length (by rw [← covered_header, whole]; rfl)
  obtain ⟨typed, shape, all⟩ := walk_typed header_fixed .unknown tokens
  refine ⟨table, command, chain, typed.flatten, ?_, shape, same⟩
  rw [same] at leads
  simp only [same, headerParts, List.forall₂_cons_left_iff, List.forall₂_nil_left_iff] at all
  obtain ⟨_, _, startTyped, ⟨_, _, tableTyped, ⟨_, _, commandTyped, ⟨_, _, chainTyped, rfl, rfl⟩, rfl⟩, rfl⟩, rfl⟩ := all
  obtain - | ⟨-, fromTable⟩ := leads
  obtain - | ⟨-, fromCommand⟩ := fromTable
  obtain - | ⟨-, fromChain⟩ := fromCommand
  obtain - | ⟨⟨own, known, holds⟩, -⟩ := fromChain
  obtain rfl : own = table := by simpa [Context.resolve, Component.named, Context.unknown, eq_comm] using known
  cases startTyped
  cases chainTyped
  cases tableTyped with
  | table spells names =>
    cases commandTyped with
    | command found =>
      have accepts := List.find?_some found
      exact ⟨holds, _, _, _, rfl, spells, names, accepts⟩

end Grammar

end PacketFilter
