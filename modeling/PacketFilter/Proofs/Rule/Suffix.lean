import PacketFilter.Proofs.Grammar.Conservation
import PacketFilter.Proofs.Text.Positions
import PacketFilter.Rule

/-!
# The unrecognized end of a text

A walk leaves tokens in their order, with their positions, so the first one it leaves says where in the text the part
begins that it did not understand, even if other tokens have the same words. Main statement:
`Rule.unrecognizedSuffix_isCut`.
-/

namespace PacketFilter

open Grammar

/-- Among tokens that are all different, those that are not left were typed for the elements. -/
theorem Grammar.Keeps.perm_consumed {elements : List Element} {rest tokens : List Token}
    (keeps : Keeps elements rest tokens) (nodup : tokens.Nodup) :
    (Token.texts (tokens.filter fun token => token ∉ rest)).Perm (elements.flatMap Element.typed) := by
  have left : (tokens.filter fun token => token ∈ rest).Perm rest := by
    refine (List.perm_ext_iff_of_nodup (nodup.filter _) (nodup.sublist keeps.sublist)).2 fun token => ?_
    simpa using fun member => keeps.sublist.subset member
  have parted : (Token.texts rest ++ Token.texts (tokens.filter fun token => token ∉ rest)).Perm (Token.texts tokens) := by
    rw [← Token.texts_append]
    refine List.Perm.map Token.text ((left.symm.append_right _).trans ?_)
    simpa using List.filter_append_perm (fun token => decide (token ∈ rest)) tokens
  exact (List.perm_append_left_iff (Token.texts rest)).1 (parted.trans keeps.perm.symm)

/-- Tokens that are all different, cut at the first one of those that are left: none in front of it is left. -/
theorem Grammar.Keeps.exists_split {elements : List Element} {token : Token} {rest tokens : List Token}
    (keeps : Keeps elements (token :: rest) tokens) (nodup : tokens.Nodup) :
    ∃ front back, tokens = front ++ token :: back ∧ (token :: rest).Sublist (token :: back) ∧
      ∀ other ∈ front, other ∉ token :: rest := by
  obtain ⟨before, behind, rfl, member, later⟩ := List.cons_sublist_iff.1 keeps.sublist
  obtain ⟨front, middle, rfl⟩ := List.append_of_mem member
  have back : (token :: rest).Sublist (token :: (middle ++ behind)) :=
    (later.trans (List.sublist_append_right middle behind)).cons_cons token
  rw [List.append_assoc, List.cons_append] at nodup
  refine ⟨front, middle ++ behind, by simp, back, fun other isFront left => ?_⟩
  exact List.disjoint_of_nodup_append nodup isFront (back.subset left)

/-- Nothing is unrecognized exactly if the match leaves no token. -/
theorem Rule.unrecognizedSuffix_eq_empty_iff (rule : Rule) (typed : String) :
    rule.unrecognizedSuffix typed = "" ↔ (rule.grammar.parse rule.context (Token.scan typed)).leftover = [] := by
  have left : (rule.grammar.choose rule.context (Token.scan typed)).walk.rest =
    (rule.grammar.parse rule.context (Token.scan typed)).leftover := rfl
  rw [unrecognizedSuffix, left]
  generalize parsed : rule.grammar.parse rule.context (Token.scan typed) = outcome
  have keeps : Keeps outcome.elements outcome.leftover (Token.scan typed) := parsed ▸ keeps_parse _ _ _
  cases rest : outcome.leftover with
  | nil => exact ⟨fun _ => rfl, fun _ => rfl⟩
  | cons token more =>
    rw [rest] at keeps
    obtain ⟨front, back, split, -, -⟩ := keeps.exists_split (Token.nodup_scan typed)
    obtain ⟨ahead, -, -, -, -, spelled⟩ := Token.scan_eq_append_cons split
    have member : token ∈ Token.scan typed := keeps.sublist.subset (by simp)
    have word : token.text ≠ "" := (Token.isWord_of_mem_scan member).1
    have suffix : Token.suffixOf typed token ≠ "" := fun empty => by simp [empty, word] at spelled
    simp [suffix]

/-- A text is cut in front of the first token that an outcome leaves: `back` are the tokens from that one on. -/
structure IsCut (typed ahead suffix : String) (back : List Token) (outcome : Outcome) : Prop where
  whole : typed = ahead ++ suffix
  tokens : Token.scan typed = Token.scan ahead ++ back
  words : Token.texts (Token.scan suffix) = Token.texts back
  /-- The suffix starts where the first token that is left stands. -/
  place : ∀ first ∈ outcome.leftover.head?, ahead.length = first.start ∧ first.text.toList <+: suffix.toList
  empty : outcome.leftover = [] → suffix = ""
  sublist : outcome.leftover.Sublist back
  head : outcome.leftover.head? = back.head?
  before : ∀ token ∈ Token.scan ahead, token ∉ outcome.leftover
  /-- Tokens that are not left were consumed: their words are those that were typed for the elements. -/
  consumed : (Token.texts ((Token.scan typed).filter fun token => token ∉ outcome.leftover)).Perm
    (outcome.elements.flatMap Element.typed)

/-- The unrecognized suffix is the end of the text from the first token on that the walk left, or nothing. -/
theorem Rule.unrecognizedSuffix_isCut (rule : Rule) (typed : String) :
    ∃ ahead back, IsCut typed ahead (rule.unrecognizedSuffix typed) back
      (rule.grammar.parse rule.context (Token.scan typed)) := by
  generalize parsed : rule.grammar.parse rule.context (Token.scan typed) = outcome
  have keeps : Keeps outcome.elements outcome.leftover (Token.scan typed) := parsed ▸ keeps_parse _ _ _
  have nodup := Token.nodup_scan typed
  have consumed := keeps.perm_consumed nodup
  have walked : outcome.leftover = (rule.grammar.choose rule.context (Token.scan typed)).walk.rest := parsed ▸ rfl
  cases left : outcome.leftover with
  | nil =>
    have suffix : rule.unrecognizedSuffix typed = "" := by rw [unrecognizedSuffix, ← walked, left]
    rw [suffix]
    exact ⟨typed, [], {
      whole := String.append_empty.symm
      tokens := (List.append_nil _).symm
      words := rfl
      place := by simp [left]
      empty := fun _ => rfl
      sublist := by simp [left]
      head := by simp [left]
      before := by simp [left]
      consumed }⟩
  | cons first more =>
    have suffix : rule.unrecognizedSuffix typed = Token.suffixOf typed first := by
      rw [unrecognizedSuffix, ← walked, left]
    rw [left] at keeps
    obtain ⟨front, back, split, sublist, before⟩ := keeps.exists_split nodup
    obtain ⟨ahead, whole, start, scanned, words, spelled⟩ := Token.scan_eq_append_cons split
    rw [suffix]
    exact ⟨ahead, first :: back, {
      whole
      tokens := by rw [split, scanned]
      words
      place := by simpa [left] using ⟨start, spelled⟩
      empty := by simp [left]
      sublist := by rwa [left]
      head := by rw [left, List.head?_cons, List.head?_cons]
      before := by rwa [scanned, left]
      consumed }⟩

end PacketFilter
