/-!
# Letters, parts and sets of text

Comparison of names in any letter case, the two parts of a text around a mark, and sets of texts in
the order of their code points. Main content: `cutAt` and `sortedSet`.
-/

namespace PacketFilter.Text

/-- Equality of two texts up to the case of the letters `a` to `z`. -/
def equalIgnoringCase (a b : String) : Bool := a.toList.map Char.toLower == b.toList.map Char.toLower

/-- The characters before the first `mark`, and those after it if it occurs. -/
def cutAt (mark : Char) (cs : List Char) : List Char × Option (List Char) :=
  match cs.dropWhile (· != mark) with
  | [] => (cs, none)
  | _ :: rest => (cs.takeWhile (· != mark), some rest)

/-- Words separated by single spaces. -/
def joinWords (words : List String) : String := " ".intercalate words

/-- Adds a text to a strictly ascending list, unless it is there. -/
def insertSorted (text : String) : List String → List String
  | [] => [text]
  | head :: tail =>
    if text < head then text :: head :: tail
    else if text = head then head :: tail
    else head :: insertSorted text tail

/-- The texts of a list once each, in ascending order. -/
def sortedSet (texts : List String) : List String := texts.foldr insertSorted []

theorem cutAt_of_notMem {mark : Char} {cs : List Char} (h : mark ∉ cs) : cutAt mark cs = (cs, none) := by
  have others : ∀ c ∈ cs, (c != mark) = true := fun c member => bne_iff_ne.2 fun same => h (same ▸ member)
  have nothing : (cs ++ []).dropWhile (· != mark) = [].dropWhile (· != mark) := List.dropWhile_append_of_pos others
  rw [List.append_nil, List.dropWhile_nil] at nothing
  simp [cutAt, nothing]

theorem cutAt_append_cons {mark : Char} {front : List Char} (h : mark ∉ front) (back : List Char) :
    cutAt mark (front ++ mark :: back) = (front, some back) := by
  have others : ∀ c ∈ front, (c != mark) = true := fun c member => bne_iff_ne.2 fun same => h (same ▸ member)
  simp [cutAt, List.dropWhile_append_of_pos others, List.takeWhile_append_of_pos others]

theorem eq_of_cutAt_none {mark : Char} {cs front : List Char} (cut : cutAt mark cs = (front, none)) : cs = front := by
  unfold cutAt at cut
  split at cut
  · exact congrArg Prod.fst cut
  · cases cut

theorem eq_of_cutAt {mark : Char} {cs front back : List Char} (cut : cutAt mark cs = (front, some back)) :
    cs = front ++ mark :: back := by
  unfold cutAt at cut
  split at cut
  · simp at cut
  · rename_i c rest behind
    obtain ⟨rfl, rfl⟩ : cs.takeWhile (· != mark) = front ∧ rest = back := by simpa using cut
    have stopped := List.head_dropWhile_not (· != mark) (l := cs) (by simp [behind])
    obtain rfl : c = mark := by simpa [behind] using stopped
    rw [← behind, List.takeWhile_append_dropWhile]

theorem mem_insertSorted {text other : String} {texts : List String} :
    other ∈ insertSorted text texts ↔ other = text ∨ other ∈ texts := by
  induction texts with
  | nil => simp [insertSorted]
  | cons head tail ih => grind [insertSorted]

theorem mem_sortedSet {text : String} {texts : List String} : text ∈ sortedSet texts ↔ text ∈ texts := by
  induction texts with
  | nil => simp [sortedSet]
  | cons head tail ih =>
    simp only [sortedSet, List.foldr_cons, mem_insertSorted, List.mem_cons] at ih ⊢
    rw [ih]

end PacketFilter.Text
