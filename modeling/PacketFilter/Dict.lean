/-!
# Dictionaries

Finite maps from names to values, kept in ascending order of the names, so that equal maps are equal
as data. Main statements: `get?_insert_self` and `get?_insert_of_ne`.
-/

namespace PacketFilter

/-- A map from names to values: its entries, with strictly ascending names. -/
structure Dict (α : Type) where
  entries : List (String × α)
  ascending : entries.Pairwise fun a b => a.1 < b.1

namespace Dict

variable {α : Type}

instance [DecidableEq α] : DecidableEq (Dict α) := fun a b =>
  decidable_of_iff (a.entries = b.entries) (by cases a; cases b; simp)

/-- The map without entries. -/
def empty : Dict α := ⟨[], .nil⟩

instance : Inhabited (Dict α) := ⟨empty⟩

/-- Puts an entry at its place among ascending ones, in the stead of one with the same name. -/
def insertEntry (name : String) (value : α) : List (String × α) → List (String × α)
  | [] => [(name, value)]
  | head :: tail =>
    if name < head.1 then (name, value) :: head :: tail
    else if name = head.1 then (name, value) :: tail
    else head :: insertEntry name value tail

theorem mem_insertEntry {name : String} {value : α} {entries : List (String × α)} {entry : String × α}
    (h : entry ∈ insertEntry name value entries) : entry = (name, value) ∨ entry ∈ entries := by
  induction entries with
  | nil => simpa [insertEntry] using h
  | cons head tail ih => grind [insertEntry]

theorem ascending_insertEntry (name : String) (value : α) {entries : List (String × α)}
    (h : entries.Pairwise fun a b => a.1 < b.1) :
    (insertEntry name value entries).Pairwise fun a b => a.1 < b.1 := by
  induction entries with
  | nil => simp [insertEntry]
  | cons head tail ih =>
    obtain ⟨first, others⟩ := List.pairwise_cons.1 h
    unfold insertEntry
    split
    · next before =>
      refine .cons (fun entry member => ?_) h
      rcases List.mem_cons.1 member with rfl | member
      · exact before
      · exact String.lt_trans before (first entry member)
    · next notBefore =>
      split
      · next same => exact .cons (fun entry member => same ▸ first entry member) others
      · next other =>
        refine .cons (fun entry member => ?_) (ih others)
        rcases mem_insertEntry member with rfl | member
        · exact Std.lt_of_le_of_ne (String.not_lt.1 notBefore) (Ne.symm other)
        · exact first entry member

/-- Sets the value of a name. -/
def insert (dict : Dict α) (name : String) (value : α) : Dict α :=
  ⟨insertEntry name value dict.entries, ascending_insertEntry name value dict.ascending⟩

/-- The value of a name. -/
def get? (dict : Dict α) (name : String) : Option α := dict.entries.lookup name

/-- Whether a name has a value. -/
def contains (dict : Dict α) (name : String) : Bool := (dict.get? name).isSome

/-- Sets the values of a list of entries from first to last, so that the last one of a name stays. -/
def insertAll (dict : Dict α) (entries : List (String × α)) : Dict α :=
  entries.foldl (fun dict entry => dict.insert entry.1 entry.2) dict

/-- The map of a list of entries; the last one of a name stays. -/
def ofList (entries : List (String × α)) : Dict α := empty.insertAll entries

@[simp] theorem get?_empty (name : String) : (empty : Dict α).get? name = none := rfl

theorem lookup_insertEntry_self (name : String) (value : α) (entries : List (String × α)) :
    (insertEntry name value entries).lookup name = some value := by
  induction entries with
  | nil => simp [insertEntry]
  | cons head tail ih =>
    obtain ⟨key, old⟩ := head
    unfold insertEntry
    split
    · simp
    · split
      · simp
      · next other => simp [List.lookup_cons, ih, beq_false_of_ne other]

theorem lookup_insertEntry_of_ne {name other : String} (h : other ≠ name) (value : α) (entries : List (String × α)) :
    (insertEntry name value entries).lookup other = entries.lookup other := by
  have differ : (other == name) = false := beq_false_of_ne h
  induction entries with
  | nil => simp [insertEntry, List.lookup_cons, differ]
  | cons head tail ih =>
    obtain ⟨key, old⟩ := head
    unfold insertEntry
    split
    · simp [List.lookup_cons, differ]
    · split
      · next same =>
        have same : name = key := same
        subst same
        simp [List.lookup_cons, differ]
      · simp [List.lookup_cons, ih]

@[simp] theorem get?_insert_self (dict : Dict α) (name : String) (value : α) :
    (dict.insert name value).get? name = some value :=
  lookup_insertEntry_self name value dict.entries

theorem get?_insert_of_ne (dict : Dict α) {name other : String} (h : other ≠ name) (value : α) :
    (dict.insert name value).get? other = dict.get? other :=
  lookup_insertEntry_of_ne h value dict.entries

end Dict

end PacketFilter
