import PacketFilter.Proofs.Store.Reading

/-!
# What a stream adds to a store

A stream is read as a whole: its rules go to the slots of the headers above them, and a line that cannot be read or
looks like a header without being one of a slot leaves the store as it was. Main statement: `Store.load_sound`.
-/

namespace PacketFilter

/-! ## Headers -/

namespace Header

/-- A text is written as a header of two names. -/
def Names (text table chain : String) : Prop :=
  text = "#" ++ table ++ "." ++ chain ∧ isName table.toList = true ∧ isName chain.toList = true

/-- A text is the header of a slot: it names the table in any letter case and the chain exactly. -/
def IsFor (text : String) (slot : Slot) : Prop :=
  ∃ table chain, Names text table chain ∧ Table.ofName? table = some slot.table ∧
    Chain.ofName? chain = some slot.chain

/-- What is wrong with a header on a line when an error is reported for it. -/
def Fault (line : Nat) (text : String) : LoadError → Prop
  | .malformedHeader number written => number = line ∧ written = text ∧ ∀ table chain, ¬ Names text table chain
  | .unknownTable number table => number = line ∧ Table.ofName? table = none ∧ ∃ chain, Names text table chain
  | .unknownChain number chain =>
    number = line ∧ Chain.ofName? chain = none ∧ ∃ table, (Table.ofName? table).isSome = true ∧ Names text table chain
  | .chainNotInTable number table chain =>
    number = line ∧ ¬ table.Holds chain ∧ ∃ tableName chainName, Table.ofName? tableName = some table ∧
      Chain.ofName? chainName = some chain ∧ Names text tableName chainName
  | .stream _ => False

theorem dot_not_mem {cs : List Char} (name : isName cs = true) : '.' ∉ cs := by
  intro member
  rw [isName, Bool.and_eq_true, List.all_eq_true] at name
  exact absurd (name.2 '.' member) (by decide)

theorem names?_eq_some_iff {text table chain : String} :
    names? text.toList = some (table, chain) ↔ Names text table chain := by
  constructor
  · intro read
    unfold names? at read
    split at read
    · rename_i rest start
      split at read
      · rename_i front back cut
        split at read
        · rename_i both
          obtain ⟨rfl, rfl⟩ : String.ofList front = table ∧ String.ofList back = chain := by simpa using read
          rw [Bool.and_eq_true] at both
          refine ⟨String.toList_inj.1 ?_, by simpa using both.1, by simpa using both.2⟩
          simp [start, Text.eq_of_cutAt cut]
        · cases read
      · cases read
    · cases read
  · rintro ⟨rfl, first, second⟩
    have shape : ("#" ++ table ++ "." ++ chain).toList = '#' :: (table.toList ++ '.' :: chain.toList) := by simp
    rw [shape]
    simp [names?, Text.cutAt_append_cons (dot_not_mem first), first, second]

theorem parse_eq_ok_iff {line : Nat} {text : String} {slot : Slot} : parse line text = .ok slot ↔ IsFor text slot := by
  constructor
  · intro read
    rw [parse] at read
    split at read
    · cases read
    · rename_i tableName chainName named
      split at read
      · cases read
      · rename_i table ofTable
        split at read
        · cases read
        · rename_i chain ofChain
          split at read
          · cases read
          · rename_i found
            obtain rfl := Except.ok.inj read
            obtain ⟨rfl, rfl⟩ := Slot.of?_eq_some_iff.1 found
            exact ⟨tableName, chainName, names?_eq_some_iff.1 named, ofTable, ofChain⟩
  · rintro ⟨tableName, chainName, names, ofTable, ofChain⟩
    have found : Slot.of? slot.table slot.chain = some slot := Slot.of?_eq_some_iff.2 ⟨rfl, rfl⟩
    rw [parse, names?_eq_some_iff.2 names]
    simp only [ofTable, ofChain, found]

/-- The error for a header says what is wrong with it. -/
theorem fault_of_parse {line : Nat} {text : String} {error : LoadError} (read : parse line text = .error error) :
    Fault line text error := by
  rw [parse] at read
  split at read
  · rename_i named
    obtain rfl := Except.error.inj read
    refine ⟨rfl, rfl, fun table chain names => ?_⟩
    rw [names?_eq_some_iff.2 names] at named
    cases named
  · rename_i tableName chainName named
    have names := names?_eq_some_iff.1 named
    split at read
    · rename_i unknown
      obtain rfl := Except.error.inj read
      exact ⟨rfl, unknown, chainName, names⟩
    · rename_i table ofTable
      split at read
      · rename_i unknown
        obtain rfl := Except.error.inj read
        exact ⟨rfl, unknown, tableName, by simp [ofTable], names⟩
      · rename_i chain ofChain
        split at read
        · rename_i excluded
          obtain rfl := Except.error.inj read
          refine ⟨rfl, ?_, tableName, chainName, ofTable, ofChain, names⟩
          rw [← Slot.isSome_of?_iff, excluded]
          simp
        · cases read

end Header

/-! ## Streams -/

namespace Lines

/-- The text of a line, unless it is not UTF-8. -/
def read (line : List UInt8) : Except StreamError String :=
  match decode? line with
  | some text => .ok text
  | none => .error .invalidText

/-- What is read of every line of a stream. The bytes behind the last line feed are a line if there are any, and a
    stream that fails does so there. -/
def readings (stream : ByteStream) : List (Except StreamError String) :=
  let pieces := stream.bytes.splitOn 0x0A
  let last := pieces.getLastD []
  (pieces.dropLast.map fun line => read (withoutReturn line)) ++
    match stream.failure? with
    | some message => [.error (.other message)]
    | none => if last = [] then [] else [read last]

/-- Reading stops at the first line that cannot be read. -/
theorem readings_eq (stream : ByteStream) :
    ∃ hidden, readings stream = (ofStream stream).texts.map .ok ++
      match (ofStream stream).error? with
      | some error => .error error :: hidden
      | none => [] := by
  rw [readings, ofStream]
  generalize stream.bytes.splitOn 0x0A = pieces
  have single (line : List UInt8) (others : Lines) (rest : List (Except StreamError String))
      (later : ∃ hidden, rest = others.texts.map .ok ++
        match others.error? with
        | some error => .error error :: hidden
        | none => []) :
      ∃ hidden, read line :: rest = (cons line others).texts.map .ok ++
        match (cons line others).error? with
        | some error => .error error :: hidden
        | none => [] := by
    obtain ⟨hidden, same⟩ := later
    cases decoded : decode? line with
    | none => exact ⟨rest, by simp [read, cons, decoded]⟩
    | some text => exact ⟨hidden, by simp [read, cons, decoded, same]⟩
  induction pieces with
  | nil =>
    refine ⟨[], ?_⟩
    cases failed : stream.failure? <;> simp [ofPieces, ofTail]
  | cons line pieces ih =>
    cases pieces with
    | nil =>
      cases failed : stream.failure? with
      | some message => exact ⟨[], by simp [ofPieces, ofTail]⟩
      | none =>
        by_cases empty : line = []
        · exact ⟨[], by simp [ofPieces, ofTail, empty]⟩
        · obtain ⟨hidden, same⟩ := single line ⟨[], none⟩ [] ⟨[], by simp⟩
          exact ⟨hidden, by simpa [ofPieces, ofTail, empty] using same⟩
    | cons piece pieces =>
      obtain ⟨hidden, same⟩ := single (withoutReturn line) _ _ ih
      exact ⟨hidden, by simpa [ofPieces] using same⟩

end Lines

/-! ## Lines -/

theorem SavedLine.ofText_cases (text : String) :
    ofText text = .header (Text.trim text) ∧ (Text.trim text).toList.head? = some '#' ∨
      (ofText text = .blank ∨ ofText text = .rule (Text.trim text)) ∧ (Text.trim text).toList.head? ≠ some '#' := by
  cases spread : (Text.trim text).toList with
  | nil => exact .inr ⟨.inl (by simp [ofText, spread]), by simp⟩
  | cons c cs =>
    by_cases hash : c = '#'
    · subst hash
      exact .inl ⟨by simp [ofText, spread], rfl⟩
    · exact .inr ⟨.inr (by simp [ofText, spread, hash]), by simpa using hash⟩

/-- A line cannot be part of a saved store if it cannot be read, or starts like a header and is not one of a slot. -/
def IsRefused : Except StreamError String → Prop
  | .error _ => True
  | .ok text => (Text.trim text).toList.head? = some '#' ∧ ¬ ∃ slot, Header.IsFor (Text.trim text) slot

/-- What is wrong with a line when an error is reported for it; the line is counted from one. -/
def LineFault (number : Nat) : Except StreamError String → LoadError → Prop
  | .error error, fault => fault = .stream error
  | .ok text, fault => Header.Fault number (Text.trim text) fault

/-- The slot of the nearest header above a line. -/
def nearest? (above : List String) : Option Slot :=
  above.reverse.findSome? fun text => (Header.parse 0 (Text.trim text)).toOption

/-- The rule of a line, if it belongs to a slot: it resolves the slot, and no other header is the nearest above it. -/
def ruleFor? (grammar : Grammar) (slot : Slot) (above : List String) (text : String) : Option Rule :=
  match SavedLine.ofText text with
  | .rule raw =>
    (some (Rule.new grammar (((nearest? above).map Context.ofSlot).getD .unknown) raw)).filter fun rule =>
      rule.context = .ofSlot slot ∧ ∀ header ∈ nearest? above, header = slot
  | _ => none

/-- The rules that lines bring to a slot, in their order. -/
def rulesFor (grammar : Grammar) (slot : Slot) (texts : List String) : List Rule :=
  texts.zipIdx.filterMap fun pair => ruleFor? grammar slot (texts.take pair.2) pair.1

theorem parse_eq_none_of_head {text : String} (other : text.toList.head? ≠ some '#') (line : Nat) :
    (Header.parse line text).toOption = none := by
  cases read : Header.parse line text with
  | error error => rfl
  | ok slot =>
    obtain ⟨table, chain, ⟨rfl, -⟩, -⟩ := Header.parse_eq_ok_iff.1 read
    simp at other

theorem nearest?_cons (text : String) (texts : List String) :
    nearest? (text :: texts) = (nearest? texts).or (Header.parse 0 (Text.trim text)).toOption := by
  rw [nearest?, List.reverse_cons, List.findSome?_append, nearest?, List.findSome?_singleton]

theorem slotBelow_eq (header? : Option Slot) (texts : List String) :
    slotBelow header? texts = (nearest? texts).or header? := by
  induction texts generalizing header? with
  | nil => rfl
  | cons text texts ih =>
    rw [slotBelow, nearest?_cons, Option.or_assoc]
    rcases SavedLine.ofText_cases text with ⟨kind, -⟩ | ⟨kind | kind, other⟩
    · rw [kind]
      exact ih _
    · rw [kind, parse_eq_none_of_head other, Option.none_or]
      exact ih _
    · rw [kind, parse_eq_none_of_head other, Option.none_or]
      exact ih _

/-- Lines that are staged are not refused. -/
theorem not_isRefused_of_stage {grammar : Grammar} {header? : Option Slot} {line : Nat} {texts : List String}
    {staged : List Staged} (read : stage grammar header? line texts = .ok staged) :
    ∀ text ∈ texts, ¬ IsRefused (.ok text) := by
  induction texts generalizing header? line staged with
  | nil => simp
  | cons text texts ih =>
    rw [List.forall_mem_cons]
    rcases SavedLine.ofText_cases text with ⟨kind, -⟩ | ⟨kind | kind, other⟩
    · rw [stage_header _ _ _ _ kind] at read
      cases named : Header.parse line (Text.trim text) with
      | error error =>
        rw [named] at read
        cases read
      | ok slot =>
        rw [named] at read
        exact ⟨fun refused => refused.2 ⟨slot, Header.parse_eq_ok_iff.1 named⟩, ih read⟩
    · rw [stage_blank _ _ _ _ kind] at read
      exact ⟨fun refused => other refused.1, ih read⟩
    · rw [stage_rule _ _ _ _ kind] at read
      cases later : stage grammar header? (line + 1) texts with
      | error error =>
        rw [later] at read
        cases read
      | ok rest => exact ⟨fun refused => other refused.1, ih later⟩

/-- The error of lines is the one of the first line that is refused. -/
theorem fault_of_stage {grammar : Grammar} {header? : Option Slot} {line : Nat} {texts : List String}
    {error : LoadError} (failed : stage grammar header? line texts = .error error) :
    ∃ before text after, texts = before ++ text :: after ∧ (∀ other ∈ before, ¬ IsRefused (.ok other)) ∧
      IsRefused (.ok text) ∧ LineFault (line + before.length) (.ok text) error := by
  induction texts generalizing header? line with
  | nil => cases failed
  | cons text texts ih =>
    have later {header? : Option Slot} (failed : stage grammar header? (line + 1) texts = .error error)
        (fine : ¬ IsRefused (.ok text)) :
        ∃ before other after, text :: texts = before ++ other :: after ∧ (∀ other ∈ before, ¬ IsRefused (.ok other)) ∧
          IsRefused (.ok other) ∧ LineFault (line + before.length) (.ok other) error := by
      obtain ⟨before, other, after, rfl, fines, refused, fault⟩ := ih failed
      refine ⟨text :: before, other, after, rfl, List.forall_mem_cons.2 ⟨fine, fines⟩, refused, ?_⟩
      have position : line + (text :: before).length = line + 1 + before.length := by
        rw [List.length_cons]
        omega
      rw [position]
      exact fault
    rcases SavedLine.ofText_cases text with ⟨kind, hash⟩ | ⟨kind | kind, other⟩
    · rw [stage_header _ _ _ _ kind] at failed
      cases named : Header.parse line (Text.trim text) with
      | error own =>
        rw [named] at failed
        obtain rfl : own = error := Except.error.inj failed
        refine ⟨[], text, texts, rfl, by simp, ⟨hash, ?_⟩, Header.fault_of_parse named⟩
        rintro ⟨slot, isFor⟩
        rw [Header.parse_eq_ok_iff.2 isFor] at named
        cases named
      | ok slot =>
        rw [named] at failed
        exact later failed fun refused => refused.2 ⟨slot, Header.parse_eq_ok_iff.1 named⟩
    · rw [stage_blank _ _ _ _ kind] at failed
      exact later failed fun refused => other refused.1
    · rw [stage_rule _ _ _ _ kind] at failed
      cases rest : stage grammar header? (line + 1) texts with
      | ok staged =>
        rw [rest] at failed
        cases failed
      | error own =>
        rw [rest] at failed
        obtain rfl : own = error := Except.error.inj failed
        exact later rest fun refused => other refused.1

theorem rulesFor_concat (grammar : Grammar) (slot : Slot) (texts : List String) (text : String) :
    rulesFor grammar slot (texts ++ [text]) = rulesFor grammar slot texts ++ (ruleFor? grammar slot texts text).toList := by
  have earlier : (texts.zipIdx.filterMap fun pair => ruleFor? grammar slot ((texts ++ [text]).take pair.2) pair.1) =
      rulesFor grammar slot texts := by
    refine List.filterMap_congr fun pair member => ?_
    have bound := (List.mem_zipIdx member).2.1
    rw [List.take_append_of_le_length (by omega)]
  rw [rulesFor, List.zipIdx_append, List.filterMap_append, earlier]
  cases own : ruleFor? grammar slot texts text <;> simp [own]

theorem Staged.landing?_eq_some_iff {staged : Staged} {slot : Slot} :
    staged.landing? = some slot ↔
      staged.rule.context = .ofSlot slot ∧ ∀ header ∈ staged.header?, header = slot := by
  rw [landing?, Option.filter_eq_some_iff, slot?]
  cases staged.header? with
  | none =>
    simp only [Option.none_or, decide_eq_true_eq, Option.not_mem_none, false_implies, implies_true, and_true]
    refine ⟨And.right, fun own => ⟨?_, own⟩⟩
    rw [Rule.slot?, own]
    exact Slot.of?_eq_some_iff.2 ⟨rfl, rfl⟩
  | some header => simp [and_comm]

/-- What is staged for a line lands in a slot exactly if it is a rule of the slot. -/
theorem stage_singleton {grammar : Grammar} {slot : Slot} {above : List String} {line : Nat} {text : String}
    {staged : List Staged} (read : stage grammar (nearest? above) line [text] = .ok staged) :
    (staged.filter fun one => one.landing? = some slot).map Staged.rule = (ruleFor? grammar slot above text).toList := by
  rcases SavedLine.ofText_cases text with ⟨kind, -⟩ | ⟨kind | kind, -⟩
  · rw [stage_header _ _ _ _ kind] at read
    cases named : Header.parse line (Text.trim text) with
    | error error =>
      rw [named] at read
      cases read
    | ok found =>
      rw [named] at read
      obtain rfl : [] = staged := Except.ok.inj read
      rw [ruleFor?, kind]
      rfl
  · rw [stage_blank _ _ _ _ kind] at read
    obtain rfl : [] = staged := Except.ok.inj read
    rw [ruleFor?, kind]
    rfl
  · rw [stage_rule _ _ _ _ kind] at read
    obtain rfl : [Staged.ofText grammar (nearest? above) line (Text.trim text)] = staged := Except.ok.inj read
    rw [ruleFor?, kind, Staged.ofText]
    simp only [Option.filter_some]
    generalize Rule.new grammar (((nearest? above).map Context.ofSlot).getD .unknown) (Text.trim text) = rule
    have landing : Staged.landing? ⟨line, rule, nearest? above⟩ = some slot ↔ _ := Staged.landing?_eq_some_iff
    by_cases lands : rule.context = .ofSlot slot ∧ ∀ header ∈ nearest? above, header = slot
    · rw [if_pos (decide_eq_true lands)]
      simp [landing.2 lands]
    · rw [if_neg (by simpa only [decide_eq_true_eq] using lands)]
      simp [mt landing.1 lands]

theorem rules_of_stage {grammar : Grammar} {texts : List String} {staged : List Staged}
    (read : stage grammar none 1 texts = .ok staged) (slot : Slot) :
    (staged.filter fun one => one.landing? = some slot).map Staged.rule = rulesFor grammar slot texts := by
  induction texts using List.reverseRecOn generalizing staged with
  | nil =>
    obtain rfl : [] = staged := Except.ok.inj read
    rfl
  | append_singleton texts text ih =>
    rw [stage_append, slotBelow_eq, Option.or_none] at read
    cases first : stage grammar none 1 texts with
    | error error =>
      rw [first] at read
      cases read
    | ok before =>
      cases last : stage grammar (nearest? texts) (1 + texts.length) [text] with
      | error error =>
        rw [first, Except.bind, last] at read
        cases read
      | ok own =>
        rw [first, Except.bind, last] at read
        obtain rfl : before ++ own = staged := Except.ok.inj read
        rw [List.filter_append, List.map_append, ih first, stage_singleton last, rulesFor_concat]

namespace Store

theorem size_setRules_append (store : Store) (slot : Slot) (rule : Rule) :
    (store.setRules slot (store.rules slot ++ [rule])).size = store.size + 1 := by
  cases slot <;> simp [size, Slot.all, setRules, rules, SlotMap.get, SlotMap.set] <;> omega

/-- Every rule that is placed is counted, makes the store longer by one and is told as appended. -/
theorem changes_placeAll (store : Store) (staged : List Staged) :
    (store.placeAll staged).count = (store.placeAll staged).changes.length ∧
      (∀ change ∈ (store.placeAll staged).changes, change.kind = .appended) ∧
        (store.placeAll staged).store.size = store.size + (store.placeAll staged).count := by
  induction staged generalizing store with
  | nil => simp [placeAll]
  | cons first staged ih =>
    rw [placeAll, place?_eq]
    cases lands : first.landing? with
    | none => exact ih store
    | some slot =>
      obtain ⟨counted, kinds, grown⟩ := ih (store.setRules slot (store.rules slot ++ [first.rule]))
      refine ⟨?_, List.forall_mem_cons.2 ⟨rfl, kinds⟩, ?_⟩
      · simpa using counted
      · rw [size_setRules_append] at grown
        simp only [Option.map_some]
        omega

/-- A failed read is about the first line that is refused. -/
theorem fault_of_load {store : Store} {stream : ByteStream} {error : LoadError}
    (failed : store.load (.stream stream) = .error error) :
    ∃ before line after, Lines.readings stream = before ++ line :: after ∧ (∀ other ∈ before, ¬ IsRefused other) ∧
      IsRefused line ∧ LineFault (before.length + 1) line error := by
  obtain ⟨hidden, shape⟩ := Lines.readings_eq stream
  rw [load_stream] at failed
  cases staging : stage store.grammar none 1 (Lines.ofStream stream).texts with
  | error own =>
    rw [staging] at failed
    obtain rfl : own = error := Except.error.inj failed
    obtain ⟨before, text, after, split, fine, refused, fault⟩ := fault_of_stage staging
    rw [split, List.map_append, List.map_cons, List.append_assoc, List.cons_append] at shape
    refine ⟨before.map .ok, .ok text, _, shape, by simpa using fine, refused, ?_⟩
    rw [List.length_map, Nat.add_comm]
    exact fault
  | ok staged =>
    cases unread : (Lines.ofStream stream).error? with
    | none =>
      rw [staging, unread] at failed
      cases failed
    | some own =>
      rw [staging, unread] at failed
      obtain rfl : LoadError.stream own = error := Except.error.inj failed
      rw [unread] at shape
      exact ⟨_, _, hidden, shape, by simpa using not_isRefused_of_stage staging, trivial, rfl⟩

/-- A read that succeeds reads every line, refuses none and adds their rules. -/
theorem sound_of_load {store : Store} {stream : ByteStream} {loaded : Loaded}
    (read : store.load (.stream stream) = .ok loaded) :
    ∃ texts, Lines.readings stream = texts.map .ok ∧ (∀ text ∈ texts, ¬ IsRefused (.ok text)) ∧
      (∀ slot, loaded.store.rules slot = store.rules slot ++ rulesFor store.grammar slot texts) ∧
        loaded.count = loaded.changes.length ∧ (∀ change ∈ loaded.changes, change.kind = .appended) ∧
          loaded.store.size = store.size + loaded.count := by
  obtain ⟨_, staged, ⟨⟩, staging, whole, rfl⟩ := load_eq_ok_iff.1 read
  obtain ⟨hidden, shape⟩ := Lines.readings_eq stream
  rw [whole, List.append_nil] at shape
  refine ⟨_, shape, not_isRefused_of_stage staging, fun slot => ?_, changes_placeAll store staged⟩
  rw [rules_placeAll, rules_of_stage staging]

/-- Reading a stream adds the rules of all its lines, or nothing because of the first line that cannot be part of a
    saved store. -/
theorem load_sound (store : Store) (stream : ByteStream) :
    ((∃ error, store.load (.stream stream) = .error error) ↔ ∃ line ∈ Lines.readings stream, IsRefused line) ∧
      (∀ error, store.load (.stream stream) = .error error →
        store.perform (.load (.stream stream)) = ⟨store, []⟩ ∧
          ∃ before line after, Lines.readings stream = before ++ line :: after ∧
            (∀ other ∈ before, ¬ IsRefused other) ∧ IsRefused line ∧ LineFault (before.length + 1) line error) ∧
      ∀ loaded, store.load (.stream stream) = .ok loaded →
        ∃ texts, Lines.readings stream = texts.map .ok ∧
          (∀ slot, loaded.store.rules slot = store.rules slot ++ rulesFor store.grammar slot texts) ∧
            loaded.count = loaded.changes.length ∧ (∀ change ∈ loaded.changes, change.kind = .appended) ∧
              loaded.store.size = store.size + loaded.count := by
  refine ⟨⟨?_, ?_⟩, ?_, ?_⟩
  · rintro ⟨error, failed⟩
    obtain ⟨before, line, after, split, -, refused, -⟩ := fault_of_load failed
    exact ⟨line, by simp [split], refused⟩
  · rintro ⟨line, member, refused⟩
    cases read : store.load (.stream stream) with
    | error error => exact ⟨error, rfl⟩
    | ok loaded =>
      obtain ⟨texts, shape, fine, -⟩ := sound_of_load read
      rw [shape] at member
      obtain ⟨text, inside, rfl⟩ := List.mem_map.1 member
      exact absurd refused (fine text inside)
  · intro error failed
    refine ⟨?_, fault_of_load failed⟩
    rw [perform, perform?, failed]
    rfl
  · intro loaded read
    obtain ⟨texts, shape, -, sound⟩ := sound_of_load read
    exact ⟨texts, shape, sound⟩

/-- The header above a rule does not bring it to its slot if the rule resolves another one. -/
theorem forward_line_skipped :
    let store := Store.new Grammar.stock
    let header := "#FILTER.INPUT"
    let text := "iptables -t FILTER -A FORWARD -j DROP"
    let stream := ByteStream.ofText (header ++ "\n" ++ text ++ "\n")
    Lines.readings stream = [.ok header, .ok text] ∧ SavedLine.ofText text = .rule text ∧
      nearest? [header] = some .filterInput ∧
        (store.load (.stream stream)).map (fun loaded => (loaded.store.rules .filterInput).length) = .ok 0 := by
  intro store header text stream
  exact ⟨by decide +kernel, by decide +kernel, by decide +kernel, by decide +kernel⟩

end Store

end PacketFilter
