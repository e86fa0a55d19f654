import PacketFilter.Json.Basic
import PacketFilter.Proofs.Json.Lexeme

/-!
# Reading values

A value is read from its lexemes and from no others, and the text of a value is read as the value, except that some
control characters come back as the code units that they are written by. Main statements: `readValue?_eq_some_iff` and
`parse?_render`.
-/

namespace PacketFilter.Json

open Lexeme

/-- Induction over values: the items of an array and the values of an object's members come before it. -/
theorem induction {motive : Json → Prop} (null : motive .null) (bool : ∀ value, motive (.bool value))
    (integer : ∀ value, motive (.integer value)) (decimal : ∀ text, motive (.decimal text))
    (string : ∀ pieces, motive (.string pieces))
    (array : ∀ items, (∀ item ∈ items, motive item) → motive (.array items))
    (object : ∀ members, (∀ member ∈ members, motive member.2) → motive (.object members)) : ∀ value, motive value
  | .null => null
  | .bool value => bool value
  | .integer value => integer value
  | .decimal text => decimal text
  | .string pieces => string pieces
  | .array items => array items fun item _ => induction null bool integer decimal string array object item
  | .object members =>
    object members fun (name, value) inside =>
      have smaller : sizeOf value < sizeOf members := by
        have member := List.sizeOf_lt_of_mem inside
        simp at member
        omega
      induction null bool integer decimal string array object value

/-! ## Lexemes in front of a value -/

/-- The lexemes of items with another item behind them. -/
def frontItems (items : List Json) : List Lexeme := items.flatMap fun item => item.lexemes ++ [.comma]

/-- The lexemes of members with another member behind them. -/
def frontMembers (members : List (List Piece × Json)) : List Lexeme :=
  members.flatMap fun (name, value) => .string name :: .colon :: (value.lexemes ++ [.comma])

theorem itemLexemes_concat (items : List Json) (item : Json) :
    itemLexemes (items ++ [item]) = frontItems items ++ item.lexemes := by
  induction items with
  | nil => simp [itemLexemes, frontItems]
  | cons first items ih =>
    cases items with
    | nil => simp [itemLexemes, frontItems]
    | cons second items => simp_all [itemLexemes, frontItems]

theorem memberLexemes_concat (members : List (List Piece × Json)) (name : List Piece) (value : Json) :
    memberLexemes (members ++ [(name, value)]) =
      frontMembers members ++ .string name :: .colon :: value.lexemes := by
  induction members with
  | nil => simp [memberLexemes, frontMembers]
  | cons first members ih =>
    cases members with
    | nil => simp [memberLexemes, frontMembers]
    | cons second members => simp_all [memberLexemes, frontMembers]

/-- The lexemes of an open array or object, up to the value that is being read. -/
def Frame.lexemes : Frame → List Lexeme
  | .array items => .openBracket :: frontItems items.reverse
  | .object members name => .openBrace :: (frontMembers members.reverse ++ [.string name, .colon])

/-- The lexemes of open frames, the outermost one first. -/
def opened : List Frame → List Lexeme
  | [] => []
  | frame :: outer => opened outer ++ frame.lexemes

/-! ## What is read -/

/-- What is read was written by the lexemes that were read. -/
theorem lexemes_of_read :
    (∀ frames read final, readValue? frames read = some final → final.lexemes = opened frames ++ read) ∧
      ∀ frames value read final, readRest? frames value read = some final →
        final.lexemes = opened frames ++ value.lexemes ++ read := by
  refine readValue?.mutual_induct
    (fun frames read => ∀ final, readValue? frames read = some final → final.lexemes = opened frames ++ read)
    (fun frames value read => ∀ final, readRest? frames value read = some final →
      final.lexemes = opened frames ++ value.lexemes ++ read)
    ?null ?bool ?integer ?decimal ?string ?emptyArray ?array ?emptyObject ?object ?other
    ?done ?unfinished ?member ?noMember ?item ?noItem ?endArray ?noArray ?endObject ?noObject ?noRest
  case null | emptyArray | emptyObject =>
    intro frames rest ih final read
    rw [readValue?] at read
    simpa [lexemes, itemLexemes, memberLexemes] using ih final read
  case bool | integer | decimal | string =>
    intro frames value rest ih final read
    rw [readValue?] at read
    simpa [lexemes] using ih final read
  case array =>
    intro frames lexeme rest inside ih final read
    rw [readValue?] at read
    · simpa [opened, Frame.lexemes, frontItems] using ih final read
    · exact inside
  case object =>
    intro frames name rest ih final read
    rw [readValue?] at read
    simpa [opened, Frame.lexemes, frontMembers] using ih final read
  case done =>
    intro value final read
    rw [readRest?] at read
    obtain rfl : value = final := by simpa using read
    simp [opened]
  case member =>
    intro value name rest members last outer ih final read
    rw [readRest?] at read
    simpa [opened, Frame.lexemes, frontMembers] using ih final read
  case item =>
    intro value rest unnamed items outer ih final read
    rw [readRest?] at read
    · simpa [opened, Frame.lexemes, frontItems] using ih final read
    · exact unnamed
  case endArray =>
    intro value rest items outer ih final read
    rw [readRest?] at read
    simpa [opened, Frame.lexemes, lexemes, itemLexemes_concat] using ih final read
  case endObject =>
    intro value rest members last outer ih final read
    rw [readRest?] at read
    simpa [opened, Frame.lexemes, lexemes, memberLexemes_concat] using ih final read
  case other | unfinished | noMember | noItem | noArray | noObject | noRest =>
    intros
    simp_all [readValue?, readRest?]

/-! ## What is written -/

theorem itemLexemes_cons (item : Json) (items : List Json) :
    itemLexemes (item :: items) = item.lexemes ++ items.flatMap fun other => .comma :: other.lexemes := by
  induction items generalizing item with
  | nil => simp [itemLexemes]
  | cons second items ih => simp [itemLexemes, ih]

theorem memberLexemes_cons (name : List Piece) (value : Json) (members : List (List Piece × Json)) :
    memberLexemes ((name, value) :: members) = .string name :: .colon ::
      (value.lexemes ++ members.flatMap fun member => .comma :: .string member.1 :: .colon :: member.2.lexemes) := by
  induction members generalizing name value with
  | nil => simp [memberLexemes]
  | cons second members ih => simp [memberLexemes, ih]

theorem head?_lexemes (value : Json) : value.lexemes.head? ≠ some .closeBracket ∧ value.lexemes ≠ [] := by
  cases value <;> simp [lexemes]

/-- An array goes on behind a comma, also where a name and a colon would follow in an object. -/
theorem readRest?_comma (items : List Json) (outer : List Frame) (value : Json) (rest : List Lexeme) :
    readRest? (.array items :: outer) value (.comma :: rest) = readValue? (.array (value :: items) :: outer) rest := by
  by_cases named : ∃ name more, rest = .string name :: .colon :: more
  · obtain ⟨name, more, rfl⟩ := named
    simp [readRest?, readValue?]
  · rw [readRest?]
    rintro name more rfl
    exact named ⟨name, more, rfl⟩

theorem readValue?_openBracket (frames : List Frame) {read : List Lexeme} (other : read.head? ≠ some .closeBracket) :
    readValue? frames (.openBracket :: read) = readValue? (.array [] :: frames) read := by
  cases read with
  | nil => simp [readValue?]
  | cons lexeme read =>
    rw [readValue?]
    rintro rfl
    exact other rfl

/-- Whether a value is read from its lexemes, wherever it stands. -/
def IsRead (value : Json) : Prop :=
  ∀ frames rest, readValue? frames (value.lexemes ++ rest) = readRest? frames value rest

theorem readRest?_items {items : List Json} (each : ∀ item ∈ items, item.IsRead) (done : List Json) (value : Json)
    (outer : List Frame) (rest : List Lexeme) :
    readRest? (.array done :: outer) value
        (items.flatMap (fun other => .comma :: other.lexemes) ++ .closeBracket :: rest) =
      readRest? outer (.array (done.reverse ++ value :: items)) rest := by
  induction items generalizing done value with
  | nil => simp [readRest?]
  | cons item items ih =>
    obtain ⟨first, others⟩ := List.forall_mem_cons.1 each
    rw [List.flatMap_cons, List.cons_append, List.cons_append, readRest?_comma, List.append_assoc, first, ih others]
    simp

theorem readRest?_members {members : List (List Piece × Json)} (each : ∀ member ∈ members, member.2.IsRead)
    (done : List (List Piece × Json)) (name : List Piece) (value : Json) (outer : List Frame) (rest : List Lexeme) :
    readRest? (.object done name :: outer) value
        (members.flatMap (fun member => .comma :: .string member.1 :: .colon :: member.2.lexemes) ++ .closeBrace :: rest) =
      readRest? outer (.object (done.reverse ++ (name, value) :: members)) rest := by
  induction members generalizing done name value with
  | nil => simp [readRest?]
  | cons member members ih =>
    obtain ⟨first, others⟩ := List.forall_mem_cons.1 each
    simp only [List.flatMap_cons, List.cons_append, List.append_assoc, readRest?]
    rw [first, ih others]
    simp

/-- A value is read from its lexemes. -/
theorem isRead (value : Json) : value.IsRead := by
  induction value using induction with
  | array items each =>
    intro frames rest
    cases items with
    | nil => simp [lexemes, itemLexemes, readValue?]
    | cons item items =>
      obtain ⟨first, others⟩ := List.forall_mem_cons.1 each
      obtain ⟨inside, nonempty⟩ := item.head?_lexemes
      rw [lexemes, itemLexemes_cons]
      simp only [List.cons_append, List.append_assoc]
      rw [readValue?_openBracket, first, List.nil_append, readRest?_items others]
      · rfl
      · rwa [List.head?_append_of_ne_nil _ nonempty]
  | object members each =>
    intro frames rest
    cases members with
    | nil => simp [lexemes, memberLexemes, readValue?]
    | cons member members =>
      obtain ⟨name, value⟩ := member
      obtain ⟨first, others⟩ := List.forall_mem_cons.1 each
      rw [lexemes, memberLexemes_cons]
      simp only [List.cons_append, List.append_assoc, readValue?]
      rw [first, List.nil_append, readRest?_members others]
      rfl
  | _ =>
    intro frames rest
    simp [lexemes, readValue?]

/-- A value is read from its lexemes and from no others. -/
theorem readValue?_eq_some_iff {read : List Lexeme} {value : Json} :
    readValue? [] read = some value ↔ read = value.lexemes := by
  constructor
  · intro found
    simpa [opened] using (lexemes_of_read.1 [] read value found).symm
  · rintro rfl
    have whole := value.isRead [] []
    rwa [List.append_nil, readRest?] at whole

/-! ## What is read back -/

mutual

/-- What a value is read as, once it is written. -/
def reread : Json → Json
  | string pieces => string (pieces.map Piece.reread)
  | array items => array (rereadItems items)
  | object members => object (rereadMembers members)
  | value => value

/-- What the items of an array are read as, once they are written. -/
def rereadItems : List Json → List Json
  | [] => []
  | item :: items => reread item :: rereadItems items

/-- What the members of an object are read as, once they are written. -/
def rereadMembers : List (List Piece × Json) → List (List Piece × Json)
  | [] => []
  | (name, value) :: members => (name.map Piece.reread, reread value) :: rereadMembers members

end

theorem rereadItems_eq_map (items : List Json) : rereadItems items = items.map reread := by
  induction items with
  | nil => rfl
  | cons item items ih => rw [rereadItems, ih, List.map_cons]

theorem rereadMembers_eq_map (members : List (List Piece × Json)) :
    rereadMembers members = members.map fun (name, value) => (name.map Piece.reread, reread value) := by
  induction members with
  | nil => rfl
  | cons member members ih => rw [rereadMembers, ih, List.map_cons]

theorem lexemes_reread (value : Json) : value.reread.lexemes = value.lexemes.map Lexeme.reread := by
  induction value using induction with
  | array items each =>
    cases items with
    | nil => rfl
    | cons item items =>
      obtain ⟨first, others⟩ := List.forall_mem_cons.1 each
      have later := List.flatMap_congr fun other member => congrArg (Lexeme.comma :: ·) (others other member)
      simp [reread, rereadItems_eq_map, lexemes, itemLexemes_cons, first, Lexeme.reread, List.map_flatMap,
        List.flatMap_map, later]
  | object members each =>
    cases members with
    | nil => rfl
    | cons member members =>
      obtain ⟨name, value⟩ := member
      obtain ⟨first, others⟩ := List.forall_mem_cons.1 each
      have later := List.flatMap_congr fun other member => congrArg
        (Lexeme.comma :: .string (other.1.map Piece.reread) :: .colon :: ·) (others other member)
      simp [reread, rereadMembers_eq_map, lexemes, memberLexemes_cons, first, Lexeme.reread, List.map_flatMap,
        List.flatMap_map, later]
  | _ => rfl

/-! ## Separated lexemes -/

/-- Of two neighbours at least one ends by itself. -/
def Separated (read : List Lexeme) : Prop := read.IsChain fun a b => a.isOpen = true → b.isOpen = false

/-- Separated lexemes that may follow any other. -/
structure Sealed (read : List Lexeme) : Prop where
  separated : Separated read
  closed : ∀ first ∈ read.head?, first.isOpen = false

theorem Separated.append {front back : List Lexeme} (first : Separated front) (second : Sealed back) :
    Separated (front ++ back) :=
  List.isChain_append.2 ⟨first, second.separated, fun _ _ b head _ => second.closed b head⟩

theorem Separated.seal {read : List Lexeme} (separated : Separated read) (mark : Lexeme) (closed : mark.isOpen = false) :
    Sealed (mark :: read) := by
  refine ⟨List.isChain_cons.2 ⟨fun _ _ isOpen => ?_, separated⟩, by simpa using closed⟩
  rw [closed] at isOpen
  cases isOpen

theorem Sealed.flatMap {α : Type} {xs : List α} {write : α → List Lexeme} (each : ∀ x ∈ xs, Sealed (write x))
    {back : List Lexeme} (behind : Sealed back) : Sealed (xs.flatMap write ++ back) := by
  induction xs with
  | nil => exact behind
  | cons x xs ih =>
    obtain ⟨first, others⟩ := List.forall_mem_cons.1 each
    have later := ih others
    rw [List.flatMap_cons, List.append_assoc]
    refine ⟨first.separated.append later, fun head isHead => ?_⟩
    cases written : write x with
    | nil => exact later.closed head (by simpa [written] using isHead)
    | cons lexeme read => exact first.closed head (by simpa [written] using isHead)

theorem separated_lexemes (value : Json) : Separated value.lexemes := by
  have closing (mark : Lexeme) (closed : mark.isOpen = false) : Sealed [mark] :=
    Separated.seal List.isChain_nil mark closed
  induction value using induction with
  | array items each =>
    cases items with
    | nil => exact ((closing .closeBracket rfl).separated.seal .openBracket rfl).separated
    | cons item items =>
      obtain ⟨first, others⟩ := List.forall_mem_cons.1 each
      have later := Sealed.flatMap (fun other member => (others other member).seal .comma rfl) (closing .closeBracket rfl)
      rw [lexemes, itemLexemes_cons, List.cons_append, List.append_assoc]
      exact ((first.append later).seal .openBracket rfl).separated
  | object members each =>
    cases members with
    | nil => exact ((closing .closeBrace rfl).separated.seal .openBrace rfl).separated
    | cons member members =>
      obtain ⟨name, value⟩ := member
      obtain ⟨first, others⟩ := List.forall_mem_cons.1 each
      have named (name : List Piece) {value : Json} (separated : Separated value.lexemes) :
          Separated (.string name :: .colon :: value.lexemes) :=
        ((separated.seal .colon rfl).separated.seal (.string name) rfl).separated
      have later := Sealed.flatMap (fun other member => (named other.1 (others other member)).seal .comma rfl)
        (closing .closeBrace rfl)
      have whole := ((named name first).append later).seal .openBrace rfl
      rw [lexemes, memberLexemes_cons]
      simpa using whole.separated
  | _ => exact List.isChain_singleton _

/-- The text of a value is read as the value. -/
theorem parse?_render {value : Json} (plain : ∀ lexeme ∈ value.lexemes, lexeme.IsPlain) :
    parse? value.render = some value.reread := by
  have read := scan?_flatMap_write plain value.separated_lexemes
  rw [← lexemes_reread] at read
  simp [parse?, render, read, readValue?_eq_some_iff]

/-! ## What goes on behind a value -/

/-- Whether a value is an array or an object, which ends by itself. -/
def IsNested : Json → Prop
  | array _ | object _ => True
  | _ => False

theorem getLast?_lexemes {value : Json} (nested : value.IsNested) :
    ∃ mark, value.lexemes.getLast? = some mark ∧ mark.isOpen = false := by
  cases value with
  | array items => exact ⟨.closeBracket, by rw [lexemes, List.getLast?_concat], rfl⟩
  | object members => exact ⟨.closeBrace, by rw [lexemes, List.getLast?_concat], rfl⟩
  | _ => exact nested.elim

/-- An array or an object is read up to its last mark. -/
theorem run?_of_parse? {text : String} {value : Json} (parsed : parse? text = some value) (nested : value.IsNested) :
    run? .between text.toList = some (.between, value.lexemes) := by
  obtain ⟨read, scanned, found⟩ := Option.bind_eq_some_iff.1 parsed
  obtain rfl := readValue?_eq_some_iff.1 found
  rw [scan?_eq_run?] at scanned
  obtain ⟨⟨mode, front⟩, ran, rest⟩ := Option.bind_eq_some_iff.1 scanned
  obtain ⟨back, ends, whole⟩ := Option.bind_eq_some_iff.1 rest
  have split : front ++ back = value.lexemes := by simpa using whole
  obtain ⟨rfl, rfl⟩ | ⟨last, rfl, isOpen⟩ := finish?_cases ends
  · rw [ran, ← split, List.append_nil]
  · obtain ⟨mark, isLast, closed⟩ := getLast?_lexemes nested
    rw [← split, List.getLast?_concat] at isLast
    cases isLast
    rw [closed] at isOpen
    cases isOpen

theorem readRest?_nil_of_ne_nil (value : Json) {more : List Lexeme} (nonempty : more ≠ []) :
    readRest? [] value more = none := by
  rw [readRest?.eq_def]
  split <;> first | rfl | exact absurd rfl nonempty

/-- A text that goes on behind an array or an object is not a value any more, unless only spaces follow. -/
theorem parse?_append_of_nested {text rest : String} {value : Json} (parsed : parse? text = some value)
    (nested : value.IsNested) (further : scan? .between rest.toList ≠ some []) : parse? (text ++ rest) = none := by
  rw [parse?, String.toList_append, scan?_append (run?_of_parse? parsed nested)]
  cases found : scan? .between rest.toList with
  | none => rfl
  | some more =>
    have nonempty : more ≠ [] := fun empty => further (empty ▸ found)
    simp [value.isRead [] more, readRest?_nil_of_ne_nil value nonempty]

end PacketFilter.Json
