import PacketFilter.Proofs.Text.Words

/-!
# Positions of tokens

Every token of a text stands in it where it says: the characters in front of that place hold the tokens before it, and
those from there on begin with it. Main statements: `scan_eq_append_cons`, a text is cut at a token as its tokens are,
and `pairwise_start`, no two tokens start at one place.
-/

namespace PacketFilter.Token

/-- What is scanned in front of a token of a text, and from it on. The token is the unfinished word, which started before
    the text, or it starts in the text. -/
theorem exists_cut {position : Nat} {word cs : List Char} {front back : List Token} {token : Token}
    (split : scanFrom position word cs = front ++ token :: back) :
    (word ≠ [] ∧ front = [] ∧ token.start = position - word.length) ∨
      ∃ ahead behind, cs = ahead ++ behind ∧ token.start = position + ahead.length ∧
        scanFrom position word ahead = front ∧ scanFrom token.start [] behind = token :: back := by
  induction cs generalizing position word front with
  | nil =>
    cases word with
    | nil => simp [scanFrom, ofWord] at split
    | cons c word =>
      left
      cases front with
      | nil =>
        obtain rfl : ⟨String.ofList (c :: word).reverse, position - (c :: word).length⟩ = token :=
          (List.cons.inj (by simpa [scanFrom, ofWord] using split)).1
        exact ⟨List.cons_ne_nil c word, rfl, rfl⟩
      | cons first front => simp [scanFrom, ofWord] at split
  | cons c cs ih =>
    by_cases blank : Text.isBlank c = true
    · rw [scanFrom, if_pos blank] at split
      -- The blank ends the word, so what is behind it is scanned afresh.
      have later {front : List Token} (split : scanFrom (position + 1) [] cs = front ++ token :: back) :
          ∃ ahead behind, c :: cs = c :: ahead ++ behind ∧ token.start = position + (c :: ahead).length ∧
            scanFrom (position + 1) [] ahead = front ∧ scanFrom token.start [] behind = token :: back := by
        obtain ⟨absurd, -, -⟩ | ⟨ahead, behind, rfl, start, before, from_⟩ := ih split
        · exact (absurd rfl).elim
        · exact ⟨ahead, behind, rfl, by rw [start, List.length_cons]; omega, before, from_⟩
      cases word with
      | nil =>
        obtain ⟨ahead, behind, cut, start, before, from_⟩ := later (by simpa [ofWord] using split)
        exact .inr ⟨c :: ahead, behind, cut, start, by simpa [scanFrom, blank, ofWord] using before, from_⟩
      | cons d word =>
        cases front with
        | nil =>
          obtain ⟨rfl, -⟩ := List.cons.inj (by simpa [ofWord] using split)
          exact .inl ⟨List.cons_ne_nil d word, rfl, rfl⟩
        | cons first front =>
          obtain ⟨rfl, rest⟩ := List.cons.inj (by simpa [ofWord] using split)
          obtain ⟨ahead, behind, cut, start, before, from_⟩ := later rest
          exact .inr ⟨c :: ahead, behind, cut, start, by simp [scanFrom, blank, ofWord, before], from_⟩
    · rw [scanFrom, if_neg blank] at split
      obtain ⟨-, rfl, start⟩ | ⟨ahead, behind, rfl, start, before, from_⟩ := ih split
      · rw [List.length_cons, Nat.add_sub_add_right] at start
        cases word with
        | nil =>
          refine .inr ⟨[], c :: cs, rfl, start, rfl, ?_⟩
          rw [start, List.length_nil, Nat.sub_zero, scanFrom, if_neg blank]
          exact split
        | cons d word => exact .inl ⟨List.cons_ne_nil d word, rfl, start⟩
      · refine .inr ⟨c :: ahead, behind, rfl, by rw [start, List.length_cons]; omega, ?_, from_⟩
        rw [scanFrom, if_neg blank, before]

theorem start_of_mem_ofWord {finish : Nat} {word : List Char} (began : word.length ≤ finish) {token : Token}
    (member : token ∈ ofWord finish word) : token.start = finish - word.length ∧ token.start < finish := by
  cases word with
  | nil => simp [ofWord] at member
  | cons c word =>
    obtain rfl : token = ⟨String.ofList (c :: word).reverse, finish - (c :: word).length⟩ := by
      simpa [ofWord] using member
    rw [List.length_cons] at began ⊢
    exact ⟨rfl, Nat.sub_lt (by omega) (by omega)⟩

/-- Tokens start where scanning started or later, and before the end. -/
theorem start_of_mem_scanFrom {position : Nat} {word cs : List Char} (began : word.length ≤ position) {token : Token}
    (member : token ∈ scanFrom position word cs) :
    position - word.length ≤ token.start ∧ token.start < position + cs.length := by
  induction cs generalizing position word with
  | nil =>
    obtain ⟨same, before⟩ := start_of_mem_ofWord began member
    exact ⟨Nat.le_of_eq same.symm, before⟩
  | cons c cs ih =>
    rw [List.length_cons]
    by_cases blank : Text.isBlank c = true
    · rw [scanFrom, if_pos blank] at member
      rcases List.mem_append.1 member with here | later
      · have := start_of_mem_ofWord began here
        omega
      · have := ih (Nat.zero_le _) later
        rw [List.length_nil] at this
        omega
    · rw [scanFrom, if_neg blank] at member
      have := @ih (position + 1) (c :: word) (Nat.succ_le_succ began) member
      rw [List.length_cons] at this
      omega

theorem pairwise_scanFrom {position : Nat} {word : List Char} (began : word.length ≤ position) (cs : List Char) :
    (scanFrom position word cs).Pairwise fun a b => a.start < b.start := by
  induction cs generalizing position word with
  | nil => cases word <;> simp [scanFrom, ofWord]
  | cons c cs ih =>
    by_cases blank : Text.isBlank c = true
    · rw [scanFrom, if_pos blank, List.pairwise_append]
      refine ⟨by cases word <;> simp [ofWord], ih (Nat.zero_le _), fun first here second later => ?_⟩
      have := start_of_mem_ofWord began here
      have := start_of_mem_scanFrom (Nat.zero_le _) later
      rw [List.length_nil] at this
      omega
    · rw [scanFrom, if_neg blank]
      exact ih (Nat.succ_le_succ began)

/-- The tokens of a text start one behind the other. -/
theorem pairwise_start (text : String) : (scan text).Pairwise fun a b => a.start < b.start :=
  pairwise_scanFrom (Nat.le_refl 0) text.toList

theorem nodup_scan (text : String) : (scan text).Nodup := by
  refine (pairwise_start text).imp fun {a b} before => ?_
  rintro rfl
  exact Nat.lt_irrefl _ before

/-- The first token, if it starts where scanning started, is what the characters begin with. -/
theorem isPrefix_of_scanFrom {position : Nat} {word cs : List Char} (began : word.length ≤ position) {token : Token}
    {back : List Token} (split : scanFrom position word cs = token :: back) (start : token.start = position - word.length) :
    token.text.toList <+: word.reverse ++ cs := by
  induction cs generalizing position word with
  | nil =>
    cases word with
    | nil => simp [scanFrom, ofWord] at split
    | cons d word =>
      obtain ⟨rfl, -⟩ := List.cons.inj (by simpa [scanFrom, ofWord] using split)
      simp
  | cons c cs ih =>
    by_cases blank : Text.isBlank c = true
    · rw [scanFrom, if_pos blank] at split
      cases word with
      | nil =>
        -- Behind the blank, tokens start too late.
        have member : token ∈ scanFrom (position + 1) [] cs := by
          rw [ofWord, List.isEmpty_nil, if_pos rfl, List.nil_append] at split
          simp [split]
        have := start_of_mem_scanFrom (Nat.zero_le _) member
        rw [List.length_nil] at this start
        omega
      | cons d word =>
        obtain ⟨rfl, -⟩ := List.cons.inj (by simpa [ofWord] using split)
        simp
    · rw [scanFrom, if_neg blank] at split
      have inside := ih (Nat.succ_le_succ began) split (by rw [start, List.length_cons]; omega)
      simpa using inside

/-- A text is cut at a token as its tokens are: those before it are the tokens of what stands in front, and what follows
    begins with it and has it and those behind it as its tokens. -/
theorem scan_eq_append_cons {typed : String} {front back : List Token} {token : Token}
    (split : scan typed = front ++ token :: back) :
    ∃ ahead, typed = ahead ++ suffixOf typed token ∧ ahead.length = token.start ∧ scan ahead = front ∧
      texts (scan (suffixOf typed token)) = texts (token :: back) ∧ token.text.toList <+: (suffixOf typed token).toList := by
  obtain ⟨absurd, -, -⟩ | ⟨ahead, behind, cut, start, before, rest⟩ := exists_cut split
  · exact (absurd rfl).elim
  · rw [Nat.zero_add] at start
    have suffix : suffixOf typed token = String.ofList behind := by
      rw [suffixOf, cut, start, List.drop_left]
    rw [suffix]
    refine ⟨String.ofList ahead, ?_, by simp [start], by simpa [scan] using before, ?_, ?_⟩
    · rw [← String.ofList_append, ← cut, String.ofList_toList]
    · rw [scan, String.toList_ofList, texts_scanFrom_position 0 token.start, rest]
    · rw [String.toList_ofList]
      exact isPrefix_of_scanFrom (Nat.zero_le _) rest rfl

end PacketFilter.Token
