import PacketFilter.Packet

/-!
# Fields of packets

A dictionary is known by the values of its names, so settings of fields can be told by what they do to each field: of
two settings of one field the later one stays, and settings of different fields may be exchanged. Main statements:
`Dict.ext_get?`, `Packet.set_set` and `Packet.set_comm`.
-/

namespace PacketFilter

/-! ## Dictionaries -/

namespace Dict

variable {α : Type}

theorem lookup_head (entry : String × α) (entries : List (String × α)) :
    (entry :: entries).lookup entry.1 = some entry.2 :=
  List.lookup_cons_self

theorem lookup_behind {name : String} {entry : String × α} (other : name ≠ entry.1) (entries : List (String × α)) :
    (entry :: entries).lookup name = entries.lookup name := by
  obtain ⟨key, value⟩ := entry
  rw [List.lookup_cons, beq_false_of_ne other]

theorem lookup_eq_none_of_lt {name : String} {entries : List (String × α)} (above : ∀ entry ∈ entries, name < entry.1) :
    entries.lookup name = none := by
  refine List.lookup_eq_none_iff.2 fun entry member => ?_
  exact bne_iff_ne.2 (String.ne_of_lt (above entry member))

/-- The first of ascending entries has the least name. -/
theorem le_of_lookup {name : String} {head : String × α} {tail : List (String × α)} {value : α}
    (ascending : (head :: tail).Pairwise fun x y => x.1 < y.1) (found : (head :: tail).lookup name = some value) :
    head.1 ≤ name := by
  refine String.not_lt.1 fun less => ?_
  have missing : (head :: tail).lookup name = none := by
    refine lookup_eq_none_of_lt fun entry member => ?_
    rcases List.mem_cons.1 member with rfl | later
    · exact less
    · exact String.lt_trans less ((List.pairwise_cons.1 ascending).1 entry later)
  rw [missing] at found
  cases found

/-- Ascending entries are known by the values of their names. -/
theorem eq_of_lookup {a b : List (String × α)} (ascendingA : a.Pairwise fun x y => x.1 < y.1)
    (ascendingB : b.Pairwise fun x y => x.1 < y.1) (same : ∀ name, a.lookup name = b.lookup name) : a = b := by
  induction a generalizing b with
  | nil =>
    cases b with
    | nil => rfl
    | cons head tail =>
      have missing := same head.1
      rw [lookup_head] at missing
      cases missing
  | cons first more ih =>
    cases b with
    | nil =>
      have missing := same first.1
      rw [lookup_head] at missing
      cases missing
    | cons head tail =>
      have least : head.1 ≤ first.1 := le_of_lookup ascendingB ((same first.1).symm.trans (lookup_head first more))
      have greatest : first.1 ≤ head.1 := le_of_lookup ascendingA ((same head.1).trans (lookup_head head tail))
      have sameName : first.1 = head.1 := String.le_antisymm greatest least
      have sameValue : first.2 = head.2 := by
        have both := same first.1
        rw [lookup_head, sameName, lookup_head] at both
        exact Option.some.inj both
      obtain rfl : first = head := Prod.ext sameName sameValue
      obtain ⟨aboveMore, ascendingMore⟩ := List.pairwise_cons.1 ascendingA
      obtain ⟨aboveTail, ascendingTail⟩ := List.pairwise_cons.1 ascendingB
      rw [ih ascendingMore ascendingTail fun name => ?_]
      by_cases isFirst : name = first.1
      · rw [isFirst, lookup_eq_none_of_lt aboveMore, lookup_eq_none_of_lt aboveTail]
      · rw [← lookup_behind isFirst more, same, lookup_behind isFirst]

theorem ext_get? {a b : Dict α} (same : ∀ name, a.get? name = b.get? name) : a = b := by
  obtain ⟨entriesA, ascendingA⟩ := a
  obtain ⟨entriesB, ascendingB⟩ := b
  obtain rfl : entriesA = entriesB := eq_of_lookup ascendingA ascendingB same
  rfl

theorem insert_insert (dict : Dict α) (name : String) (value later : α) :
    (dict.insert name value).insert name later = dict.insert name later := by
  refine ext_get? fun other => ?_
  by_cases same : other = name
  · rw [same, get?_insert_self, get?_insert_self]
  · rw [get?_insert_of_ne _ same, get?_insert_of_ne _ same, get?_insert_of_ne _ same]

theorem insert_comm (dict : Dict α) {first second : String} (differ : first ≠ second) (a b : α) :
    (dict.insert first a).insert second b = (dict.insert second b).insert first a := by
  refine ext_get? fun other => ?_
  by_cases isFirst : other = first
  · rw [isFirst, get?_insert_of_ne _ differ, get?_insert_self, get?_insert_self]
  · by_cases isSecond : other = second
    · rw [isSecond, get?_insert_self, get?_insert_of_ne _ differ.symm, get?_insert_self]
    · simp only [get?_insert_of_ne _ isFirst, get?_insert_of_ne _ isSecond]

end Dict

/-! ## Packets -/

namespace Packet

/-- Of two settings of one field the later one stays. -/
theorem set_set (packet : Packet) (layer field : String) (value later : Value) :
    (packet.set layer field value).set layer field later = packet.set layer field later := by
  simp only [set, Dict.get?_insert_self, Option.getD_some, Dict.insert_insert]

/-- Settings of different fields may be exchanged. -/
theorem set_comm (packet : Packet) {layer field layer' field' : String} (differ : (layer, field) ≠ (layer', field'))
    (value value' : Value) :
    (packet.set layer field value).set layer' field' value' = (packet.set layer' field' value').set layer field value := by
  by_cases same : layer = layer'
  · subst same
    have other : field ≠ field' := fun e => differ (by rw [e])
    simp only [set, Dict.get?_insert_self, Option.getD_some, Dict.insert_insert, Dict.insert_comm _ other]
  · simp only [set, Dict.get?_insert_of_ne _ same, Dict.get?_insert_of_ne _ (Ne.symm same), Dict.insert_comm _ same]

theorem contains_set (packet : Packet) (layer field : String) (value : Value) (other : String) :
    (packet.set layer field value).layers.contains other = (other == layer || packet.layers.contains other) := by
  by_cases same : other = layer
  · simp [set, Dict.contains, same]
  · simp [set, Dict.contains, Dict.get?_insert_of_ne _ same, same]

/-- The protocol is told by the layers that a packet has. -/
theorem protocol?_congr {a b : Packet} (same : ∀ p : Protocol, a.layers.contains p.layer = b.layers.contains p.layer) :
    a.protocol? = b.protocol? := by
  simp only [protocol?, same]

theorem contains_of_protocol? {packet : Packet} {p : Protocol} (own : packet.protocol? = some p) :
    packet.layers.contains p.layer = true := by
  simpa using List.find?_some own

/-! ## Paths -/

/-- A path names the layer in front of its first dot. -/
theorem path?_append {layer : String} (dotless : '.' ∉ layer.toList) (field : String) :
    path? (layer ++ "." ++ field) = some (layer, field) := by
  have spread : (layer ++ "." ++ field).toList = layer.toList ++ '.' :: field.toList := by simp
  simp [path?, spread, Text.cutAt_append_cons dotless]

end Packet

end PacketFilter
