import PacketFilter.Text.Letters
import PacketFilter.Text.Token

/-!
# Words

A word is a text that stands for itself when a text is scanned: it has characters, and none of them is
blank. Main statements: `texts_scan_joinWords`, scanning undoes the joining of words, and
`isWord_of_mem_scan`, every token is a word.
-/

namespace PacketFilter

/-- A word has characters, none of them blank. -/
def IsWord (word : String) : Prop := word ≠ "" ∧ ∀ c ∈ word.toList, Text.isBlank c = false

instance (word : String) : Decidable (IsWord word) := @instDecidableAnd _ _ _ (List.decidableBAll _ word.toList)

/-! ## Joining words -/

namespace Text

@[simp] theorem joinWords_nil : joinWords [] = "" := by simp [joinWords]

@[simp] theorem joinWords_singleton (word : String) : joinWords [word] = word := by simp [joinWords]

theorem joinWords_cons_of_ne_nil (word : String) {words : List String} (more : words ≠ []) :
    joinWords (word :: words) = word ++ " " ++ joinWords words :=
  String.intercalate_cons_of_ne_nil more

theorem joinWords_append {left right : List String} (hl : left ≠ []) (hr : right ≠ []) :
    joinWords (left ++ right) = joinWords left ++ " " ++ joinWords right :=
  String.intercalate_append_of_ne_nil hl hr

theorem joinWords_map_joinWords {groups : List (List String)} (nonempty : ∀ group ∈ groups, group ≠ []) :
    joinWords (groups.map joinWords) = joinWords groups.flatten := by
  induction groups with
  | nil => rfl
  | cons group groups ih =>
    have others := ih fun other member => nonempty other (List.mem_cons_of_mem _ member)
    cases groups with
    | nil => simp
    | cons next groups =>
      have later : (next :: groups).flatten ≠ [] := by
        simp [nonempty next (by simp)]
      rw [List.map_cons, joinWords_cons_of_ne_nil _ (by simp), others,
        ← joinWords_append (nonempty group (by simp)) later, ← List.flatten_cons]

theorem mem_joinWords {words : List String} {c : Char} (member : c ∈ (joinWords words).toList) :
    c = ' ' ∨ ∃ word ∈ words, c ∈ word.toList := by
  induction words with
  | nil => simp at member
  | cons word words ih =>
    by_cases more : words = []
    · subst more
      exact .inr ⟨word, by simp, by simpa using member⟩
    · rw [joinWords_cons_of_ne_nil word more] at member
      simp only [String.toList_append, List.mem_append] at member
      rcases member with (own | space) | later
      · exact .inr ⟨word, by simp, own⟩
      · exact .inl (by simpa using space)
      · rcases ih later with space | ⟨other, inside, belongs⟩
        · exact .inl space
        · exact .inr ⟨other, by simp [inside], belongs⟩

/-- A blank character other than the space does not occur in joined words. -/
theorem not_mem_joinWords {words : List String} (solid : ∀ word ∈ words, IsWord word) {c : Char}
    (blank : isBlank c = true) (other : c ≠ ' ') : c ∉ (joinWords words).toList := by
  intro member
  rcases mem_joinWords member with space | ⟨word, inside, belongs⟩
  · exact other space
  · simp [(solid word inside).2 c belongs] at blank

theorem head?_joinWords (word : String) (words : List String) (nonempty : word ≠ "") :
    (joinWords (word :: words)).toList.head? = word.toList.head? := by
  obtain ⟨c, cs, spread⟩ := List.exists_cons_of_ne_nil (show word.toList ≠ [] by simpa using nonempty)
  by_cases more : words = []
  · simp [more]
  · simp [joinWords_cons_of_ne_nil word more, spread]

theorem joinWords_ne_nil {words : List String} (solid : ∀ word ∈ words, IsWord word) (nonempty : words ≠ []) :
    (joinWords words).toList ≠ [] := by
  obtain ⟨word, words, rfl⟩ := List.exists_cons_of_ne_nil nonempty
  have own : word ≠ "" := (solid word (by simp)).1
  intro empty
  have first := head?_joinWords word words own
  rw [empty, List.head?_nil, eq_comm, List.head?_eq_none_iff] at first
  exact own (by simpa using first)

theorem getLast?_joinWords {words : List String} (solid : ∀ word ∈ words, IsWord word) :
    ∀ c ∈ (joinWords words).toList.getLast?, isBlank c = false := by
  induction words with
  | nil => simp
  | cons word words ih =>
    intro c last
    by_cases more : words = []
    · subst more
      exact (solid word (by simp)).2 c (List.mem_of_getLast? (by simpa using last))
    · have others : ∀ other ∈ words, IsWord other := fun other member => solid other (by simp [member])
      obtain ⟨d, final⟩ := Option.ne_none_iff_exists'.1
        (mt List.getLast?_eq_none_iff.1 (joinWords_ne_nil others more))
      rw [joinWords_cons_of_ne_nil word more, String.toList_append, List.getLast?_append, final, Option.some_or] at last
      exact ih others c (final.trans last)

theorem trimmed_of_ends {cs : List Char} (first : ∀ c ∈ cs.head?, isBlank c = false)
    (last : ∀ c ∈ cs.getLast?, isBlank c = false) : trimmed cs = cs := by
  have front : cs.dropWhile isBlank = cs := by
    cases cs with
    | nil => rfl
    | cons c cs => exact List.dropWhile_cons_of_neg (by simp [first c rfl])
  have back : cs.reverse.dropWhile isBlank = cs.reverse := by
    cases spread : cs.reverse with
    | nil => rfl
    | cons c rest =>
      have final : cs.getLast? = some c := by rw [← List.head?_reverse, spread, List.head?_cons]
      exact List.dropWhile_cons_of_neg (by simp [last c final])
  rw [trimmed, front, back, List.reverse_reverse]

/-- Trimming takes blank characters off both ends. -/
theorem trimmed_spread (cs : List Char) :
    ∃ front back, cs = front ++ trimmed cs ++ back ∧ (∀ c ∈ front, isBlank c = true) ∧ ∀ c ∈ back, isBlank c = true := by
  have behind := (List.takeWhile_append_dropWhile (p := isBlank) (l := (cs.dropWhile isBlank).reverse)).symm
  have whole := congrArg List.reverse behind
  rw [List.reverse_reverse, List.reverse_append] at whole
  refine ⟨cs.takeWhile isBlank, ((cs.dropWhile isBlank).reverse.takeWhile isBlank).reverse, ?_, ?_, ?_⟩
  · rw [List.append_assoc, trimmed, ← whole, List.takeWhile_append_dropWhile]
  · exact List.all_eq_true.1 List.all_takeWhile
  · exact fun c member => List.all_eq_true.1 List.all_takeWhile c (List.mem_reverse.1 member)

/-- A blank character at the end does not count. -/
theorem trimmed_append_blank (cs : List Char) {c : Char} (blank : isBlank c = true) :
    trimmed (cs ++ [c]) = trimmed cs := by
  by_cases nothing : (cs.dropWhile isBlank).isEmpty = true
  · have empty : cs.dropWhile isBlank = [] := List.isEmpty_iff.1 nothing
    simp [trimmed, List.dropWhile_append, empty, blank]
  · simp [trimmed, List.dropWhile_append, nothing, blank]

/-- A character that is not blank stays in front. -/
theorem head?_trimmed {cs : List Char} {c : Char} (first : cs.head? = some c) (solid : isBlank c = false) :
    (trimmed cs).head? = some c := by
  obtain ⟨rest, rfl⟩ := List.head?_eq_some_iff.1 first
  have start : (c :: rest).dropWhile isBlank = c :: rest := List.dropWhile_cons_of_neg (by simp [solid])
  rw [trimmed, start, List.head?_reverse, List.reverse_cons, List.dropWhile_append]
  split
  · simp [solid]
  · simp

/-- Joined words have no blank characters at their ends. -/
theorem trim_joinWords {words : List String} (solid : ∀ word ∈ words, IsWord word) :
    trim (joinWords words) = joinWords words := by
  have first : ∀ c ∈ (joinWords words).toList.head?, isBlank c = false := by
    cases words with
    | nil => simp
    | cons word words =>
      rw [head?_joinWords word words (solid word (by simp)).1]
      exact fun c member => (solid word (by simp)).2 c (List.mem_of_head? member)
  rw [trim, trimmed_of_ends first (getLast?_joinWords solid), String.ofList_toList]

end Text

/-! ## Scanning words -/

namespace Token

theorem texts_eq_cons_iff {tokens : List Token} {word : String} {words : List String} :
    texts tokens = word :: words ↔ ∃ token rest, tokens = token :: rest ∧ token.text = word ∧ texts rest = words :=
  List.map_eq_cons_iff

theorem texts_eq_append_iff {tokens : List Token} {left right : List String} :
    texts tokens = left ++ right ↔ ∃ front back, tokens = front ++ back ∧ texts front = left ∧ texts back = right :=
  List.map_eq_append_iff

theorem texts_ofWord (finish : Nat) (word : List Char) :
    texts (ofWord finish word) = if word = [] then [] else [String.ofList word.reverse] := by
  cases word <;> simp [ofWord]

theorem texts_scanFrom_position (p q : Nat) (word cs : List Char) :
    texts (scanFrom p word cs) = texts (scanFrom q word cs) := by
  induction cs generalizing p q word with
  | nil => simp [scanFrom, texts_ofWord]
  | cons c cs ih =>
    by_cases blank : Text.isBlank c = true
    · simp [scanFrom, blank, texts_ofWord, ih (p + 1) (q + 1)]
    · simp [scanFrom, blank, ih (p + 1) (q + 1)]

theorem scanFrom_append {run : List Char} (solid : ∀ c ∈ run, Text.isBlank c = false) (position : Nat)
    (word rest : List Char) :
    scanFrom position word (run ++ rest) = scanFrom (position + run.length) (run.reverse ++ word) rest := by
  induction run generalizing position word with
  | nil => simp
  | cons c run ih =>
    have first : Text.isBlank c = false := solid c (by simp)
    have others : ∀ d ∈ run, Text.isBlank d = false := fun d member => solid d (by simp [member])
    rw [List.cons_append, scanFrom, if_neg (by simp [first]), ih others]
    simp [Nat.add_assoc, Nat.add_comm 1]

theorem texts_scan_of_isWord {word : String} (h : IsWord word) : texts (scan word) = [word] := by
  have nonempty : word.toList ≠ [] := by simpa using h.1
  have whole := scanFrom_append h.2 0 [] []
  rw [List.append_nil] at whole
  rw [scan, whole]
  simp [scanFrom, texts_ofWord, nonempty]

/-- A word that has begun is the first one. -/
theorem texts_scanFrom_eq_cons {word : List Char} (nonempty : word ≠ []) (position : Nat) (cs : List Char) :
    ∃ run others, texts (scanFrom position word cs) = String.ofList (word.reverse ++ run) :: others := by
  induction cs generalizing position word with
  | nil => exact ⟨[], [], by rw [scanFrom, texts_ofWord, if_neg nonempty, List.append_nil]⟩
  | cons c cs ih =>
    by_cases blank : Text.isBlank c = true
    · refine ⟨[], texts (scanFrom (position + 1) [] cs), ?_⟩
      rw [scanFrom, if_pos blank, texts_append, texts_ofWord, if_neg nonempty, List.append_nil, List.singleton_append]
    · obtain ⟨run, others, words⟩ := ih (List.cons_ne_nil c word) (position + 1)
      refine ⟨c :: run, others, ?_⟩
      rw [scanFrom, if_neg blank, words, List.reverse_cons, List.append_assoc, List.singleton_append]

theorem texts_scan_eq_cons {text : String} {c : Char} (first : text.toList.head? = some c)
    (solid : Text.isBlank c = false) : ∃ run others, texts (scan text) = String.ofList (c :: run) :: others := by
  obtain ⟨cs, spread⟩ := List.head?_eq_some_iff.1 first
  rw [scan, spread, scanFrom, if_neg (by simp [solid])]
  exact texts_scanFrom_eq_cons (List.cons_ne_nil c []) (0 + 1) cs

theorem texts_scanFrom_space (position : Nat) (word cs ds : List Char) :
    texts (scanFrom position word (cs ++ ' ' :: ds)) =
      texts (scanFrom position word cs) ++ texts (scanFrom 0 [] ds) := by
  induction cs generalizing position word with
  | nil =>
    rw [List.nil_append, scanFrom, scanFrom, if_pos Text.isBlank_space, texts_append, texts_scanFrom_position _ 0]
  | cons c cs ih =>
    by_cases blank : Text.isBlank c = true
    · rw [List.cons_append, scanFrom, scanFrom, if_pos blank, if_pos blank, texts_append, texts_append, ih,
        List.append_assoc]
    · rw [List.cons_append, scanFrom, scanFrom, if_neg blank, if_neg blank, ih]

/-- A space separates the words on its two sides. -/
theorem texts_scan_append (left right : String) :
    texts (scan (left ++ " " ++ right)) = texts (scan left) ++ texts (scan right) := by
  have spread : (left ++ " " ++ right).toList = left.toList ++ ' ' :: right.toList := by simp
  rw [scan, spread, texts_scanFrom_space]
  rfl

theorem texts_scan_joinWords_eq_flatMap (pieces : List String) :
    texts (scan (Text.joinWords pieces)) = pieces.flatMap fun piece => texts (scan piece) := by
  induction pieces with
  | nil => decide
  | cons piece pieces ih =>
    cases pieces with
    | nil => simp
    | cons next pieces =>
      rw [Text.joinWords_cons_of_ne_nil _ (by simp), texts_scan_append, ih]
      rfl

/-- Scanning joined words yields the words. -/
theorem texts_scan_joinWords {words : List String} (h : ∀ word ∈ words, IsWord word) :
    texts (scan (Text.joinWords words)) = words := by
  rw [texts_scan_joinWords_eq_flatMap]
  induction words with
  | nil => rfl
  | cons word words ih =>
    rw [List.flatMap_cons, texts_scan_of_isWord (h word (by simp)), ih fun other member => h other (by simp [member]),
      List.singleton_append]

theorem isWord_ofList_reverse {cs : List Char} (nonempty : cs ≠ []) (solid : ∀ c ∈ cs, Text.isBlank c = false) :
    IsWord (String.ofList cs.reverse) := by
  refine ⟨fun empty => nonempty ?_, by simpa using solid⟩
  simpa using congrArg String.toList empty

theorem isWord_of_mem_ofWord {finish : Nat} {word : List Char} {token : Token} (member : token ∈ ofWord finish word)
    (solid : ∀ c ∈ word, Text.isBlank c = false) : IsWord token.text := by
  cases word with
  | nil => simp [ofWord] at member
  | cons c cs =>
    obtain rfl : token = ⟨String.ofList (c :: cs).reverse, finish - (c :: cs).length⟩ := by simpa [ofWord] using member
    exact isWord_ofList_reverse (by simp) solid

theorem isWord_of_mem_scanFrom {position : Nat} {word cs : List Char} {token : Token}
    (member : token ∈ scanFrom position word cs) (solid : ∀ c ∈ word, Text.isBlank c = false) : IsWord token.text := by
  induction cs generalizing position word with
  | nil => exact isWord_of_mem_ofWord member solid
  | cons c cs ih =>
    by_cases blank : Text.isBlank c = true
    · rw [scanFrom, if_pos blank] at member
      rcases List.mem_append.1 member with here | later
      · exact isWord_of_mem_ofWord here solid
      · exact ih later (by simp)
    · rw [scanFrom, if_neg blank] at member
      refine ih member fun d inside => ?_
      rcases List.mem_cons.1 inside with rfl | inside
      · simpa using blank
      · exact solid d inside

/-- Every token of a text is a word. -/
theorem isWord_of_mem_scan {text : String} {token : Token} (member : token ∈ scan text) : IsWord token.text :=
  isWord_of_mem_scanFrom member (by simp)

theorem scanFrom_eq_nil_iff {position : Nat} {word cs : List Char} :
    scanFrom position word cs = [] ↔ word = [] ∧ ∀ c ∈ cs, Text.isBlank c = true := by
  induction cs generalizing position word with
  | nil => cases word <;> simp [scanFrom, ofWord]
  | cons c cs ih =>
    by_cases blank : Text.isBlank c = true
    · cases word <;> simp [scanFrom, blank, ofWord, ih]
    · simp [scanFrom, blank, ih]

theorem texts_scanFrom_blanks {front : List Char} (blank : ∀ c ∈ front, Text.isBlank c = true) (position : Nat)
    (cs : List Char) : texts (scanFrom position [] (front ++ cs)) = texts (scanFrom position [] cs) := by
  induction front generalizing position with
  | nil => rfl
  | cons c front ih =>
    rw [List.cons_append, scanFrom, if_pos (blank c (by simp)), texts_append, ih fun d member => blank d (by simp [member]),
      texts_scanFrom_position (position + 1) position]
    rfl

theorem texts_scanFrom_append_blanks {back : List Char} (blank : ∀ c ∈ back, Text.isBlank c = true) (position : Nat)
    (word cs : List Char) : texts (scanFrom position word (cs ++ back)) = texts (scanFrom position word cs) := by
  induction cs generalizing position word with
  | nil =>
    cases back with
    | nil => rfl
    | cons c back =>
      have nothing : scanFrom (position + 1) [] back = [] :=
        scanFrom_eq_nil_iff.2 ⟨rfl, fun d member => blank d (by simp [member])⟩
      show texts (scanFrom position word (c :: back)) = texts (ofWord position word)
      rw [scanFrom, if_pos (blank c (by simp)), nothing, List.append_nil]
  | cons c cs ih =>
    by_cases solid : Text.isBlank c = true
    · rw [List.cons_append, scanFrom, scanFrom, if_pos solid, if_pos solid, texts_append, texts_append, ih]
    · rw [List.cons_append, scanFrom, scanFrom, if_neg solid, if_neg solid, ih]

/-- Blank characters at the ends of a text separate nothing. -/
theorem texts_scan_trim (text : String) : texts (scan (Text.trim text)) = texts (scan text) := by
  obtain ⟨front, back, whole, before, behind⟩ := Text.trimmed_spread text.toList
  have spread : texts (scan text) = texts (scanFrom 0 [] (front ++ (Text.trimmed text.toList ++ back))) := by
    rw [scan, ← List.append_assoc, ← whole]
  rw [spread, texts_scanFrom_blanks before, texts_scanFrom_append_blanks behind, scan, Text.trim, String.toList_ofList]

theorem scan_eq_nil_iff {text : String} : scan text = [] ↔ Text.IsBlank text := by
  simp [scan, scanFrom_eq_nil_iff, Text.IsBlank]

end Token

end PacketFilter
