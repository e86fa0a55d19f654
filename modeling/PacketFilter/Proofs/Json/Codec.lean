import PacketFilter.Json.Codec
import PacketFilter.Proofs.Json.Reading

/-!
# Packets that are read back

A packet is read back from the text that it is written as. The text is one line: none of its characters is a control
character. Main statements: `Packet.parse?_render` and `Packet.isPlain_toJson`.
-/

namespace PacketFilter

/-! ## Maps of ascending entries -/

namespace Dict

variable {α : Type}

theorem insertEntry_eq_concat {name : String} (value : α) {entries : List (String × α)}
    (above : ∀ entry ∈ entries, entry.1 < name) : insertEntry name value entries = entries ++ [(name, value)] := by
  induction entries with
  | nil => rfl
  | cons head tail ih =>
    obtain ⟨first, others⟩ := List.forall_mem_cons.1 above
    have notBefore : ¬ name < head.1 := fun before => String.lt_irrefl _ (String.lt_trans first before)
    have other : name ≠ head.1 := fun same => String.lt_irrefl _ (same ▸ first)
    rw [insertEntry, if_neg notBefore, if_neg other, ih others, List.cons_append]

theorem entries_insertAll {dict : Dict α} {entries : List (String × α)}
    (ascending : (dict.entries ++ entries).Pairwise fun a b => a.1 < b.1) :
    (dict.insertAll entries).entries = dict.entries ++ entries := by
  induction entries generalizing dict with
  | nil => simp [insertAll]
  | cons entry entries ih =>
    have above := (List.pairwise_append.1 ascending).2.2
    have placed : (dict.insert entry.1 entry.2).entries = dict.entries ++ [entry] :=
      insertEntry_eq_concat entry.2 fun other member => above other member entry (by simp)
    have goesOn := @ih (dict.insert entry.1 entry.2) (by simpa [placed] using ascending)
    rw [placed] at goesOn
    simpa [insertAll] using goesOn

theorem eq_of_entries {a b : Dict α} (same : a.entries = b.entries) : a = b := by
  cases a
  cases b
  cases same
  rfl

theorem ofList_entries (dict : Dict α) : ofList dict.entries = dict :=
  eq_of_entries (entries_insertAll dict.ascending)

end Dict

/-! ## What is read back -/

namespace Json

theorem text?_map_reread_ofText (text : String) : Piece.text? ((Piece.ofText text).map Piece.reread) = some text := by
  have spelled : (Piece.ofText text).map Piece.reread = text.toList.map Piece.spell := by
    simp [Piece.ofText, Piece.reread, Function.comp_def]
  rw [Piece.text?, spelled, Piece.decode?_map_spell, Option.map_some, String.ofList_toList]

/-- A map is read back if the values of its members are. -/
theorem dict?_reread_ofDict {α : Type} {read? : Json → Option α} {write : α → Json}
    (back : ∀ value, read? (write value).reread = some value) (dict : Dict α) :
    dict? read? (ofDict write dict).reread = some dict := by
  have member (entry : String × α) :
      (do
        let name ← Piece.text? ((Piece.ofText entry.1).map Piece.reread)
        let item ← read? (write entry.2).reread
        return (name, item)) = some entry := by
    rw [text?_map_reread_ofText, back]
    rfl
  have entries : dict.entries.mapM (fun entry => do
      let name ← Piece.text? ((Piece.ofText entry.1).map Piece.reread)
      let item ← read? (write entry.2).reread
      return (name, item)) = some dict.entries := by
    rw [funext member]
    simpa using List.mapM_pure (m := Option) (l := dict.entries) (f := id)
  rw [ofDict, reread, rereadMembers_eq_map, List.map_map, dict?, List.mapM_map]
  exact (congrArg (·.bind fun entries => some (Dict.ofList entries)) entries).trans (congrArg some dict.ofList_entries)

end Json

theorem Value.ofJson?_reread_toJson (value : Value) : Value.ofJson? value.toJson.reread = some value := by
  cases value with
  | int number =>
    have range := And.intro number.minValue_le_toInt number.toInt_le
    rw [toJson, Json.reread, ofJson?, if_pos range, Int64.ofInt_toInt]
    all_goals simp
  | text words => simp [toJson, Json.ofText, Json.reread, ofJson?, Json.text?_map_reread_ofText]

theorem Packet.ofJson?_reread_toJson (packet : Packet) : Packet.ofJson? packet.toJson.reread = some packet := by
  have layers := Json.dict?_reread_ofDict (Json.dict?_reread_ofDict Value.ofJson?_reread_toJson) packet.layers
  simp [toJson, Json.reread, Json.rereadMembers, ofJson?, Json.text?_map_reread_ofText, layers]

/-! ## What is written -/

namespace Json

/-- Whether each lexeme of a value is written by a form of its own. -/
def IsPlain (value : Json) : Prop := ∀ lexeme ∈ value.lexemes, lexeme.IsPlain

theorem isPlain_ofText (text : String) : (ofText text).IsPlain := by
  intro lexeme member
  obtain rfl := List.mem_singleton.1 member
  exact ⟨text.toList, rfl⟩

theorem isPlain_integer (number : Int) : (integer number).IsPlain := by
  intro lexeme member
  obtain rfl := List.mem_singleton.1 member
  trivial

theorem mem_memberLexemes {lexeme : Lexeme} {members : List (List Piece × Json)} (inside : lexeme ∈ memberLexemes members) :
    lexeme = .comma ∨ lexeme = .colon ∨ ∃ member ∈ members, lexeme = .string member.1 ∨ lexeme ∈ member.2.lexemes := by
  cases members with
  | nil => cases inside
  | cons member members =>
    rw [memberLexemes_cons] at inside
    simp only [List.mem_cons, List.mem_append, List.mem_flatMap] at inside
    grind

theorem isPlain_object {members : List (List Piece × Json)}
    (each : ∀ member ∈ members, (Lexeme.string member.1).IsPlain ∧ member.2.IsPlain) : (object members).IsPlain := by
  intro lexeme inside
  simp only [lexemes, List.mem_append, List.mem_cons, List.not_mem_nil, or_false] at inside
  rcases inside with (rfl | inside) | rfl
  · trivial
  · obtain rfl | rfl | ⟨member, isMember, rfl | inside⟩ := mem_memberLexemes inside
    · trivial
    · trivial
    · exact (each member isMember).1
    · exact (each member isMember).2 lexeme inside
  · trivial

theorem isPlain_ofDict {α : Type} {write : α → Json} (plain : ∀ value, (write value).IsPlain) (dict : Dict α) :
    (ofDict write dict).IsPlain := by
  refine isPlain_object fun member inside => ?_
  obtain ⟨entry, _, rfl⟩ := List.mem_map.1 inside
  exact ⟨⟨entry.1.toList, rfl⟩, plain entry.2⟩

/-- No control character is written as it is. -/
theorem printable_render {value : Json} (plain : value.IsPlain) : ∀ c ∈ value.render.toList, 0x20 ≤ c.toNat := by
  simpa [render] using fun c lexeme inside => Lexeme.printable_write (plain lexeme inside) c

end Json

theorem Value.isPlain_toJson (value : Value) : value.toJson.IsPlain := by
  cases value with
  | int number => exact Json.isPlain_integer number.toInt
  | text words => exact Json.isPlain_ofText words

theorem Packet.isPlain_toJson (packet : Packet) : packet.toJson.IsPlain := by
  refine Json.isPlain_object fun member inside => ?_
  obtain rfl := List.mem_singleton.1 inside
  exact ⟨⟨"layers".toList, rfl⟩, Json.isPlain_ofDict (Json.isPlain_ofDict Value.isPlain_toJson) packet.layers⟩

/-- A packet is read back from its text. -/
theorem Packet.parse?_render (packet : Packet) : parse? packet.render = some packet := by
  simp [parse?, render, Json.parse?_render packet.isPlain_toJson, ofJson?_reread_toJson]

theorem Packet.printable_render (packet : Packet) : ∀ c ∈ packet.render.toList, 0x20 ≤ c.toNat :=
  Json.printable_render packet.isPlain_toJson

theorem Packet.head?_render (packet : Packet) : packet.render.toList.head? = some '{' := by
  simp [render, toJson, Json.render, Json.lexemes, Json.Lexeme.write]

end PacketFilter
