import PacketFilter.Proofs.Grammar.Stock

/-!
# No token is lost

A match takes tokens out of a list, from its front or from its middle: what is left keeps its order, and every token
is left or was typed for one of the elements. Main statements: `Flag.keeps_of_fit?`, one step, `keeps_walk`, a walk,
and `parse_conserves`, the outcome of a grammar.
-/

namespace PacketFilter.Grammar

/-- What a match may make of tokens: the rest is in their order, and its words with those typed for the elements are
    the words of the tokens. -/
structure Keeps (elements : List Element) (rest tokens : List Token) : Prop where
  sublist : rest.Sublist tokens
  perm : (Token.texts rest ++ elements.flatMap Element.typed).Perm (Token.texts tokens)

namespace Keeps

variable {elements later : List Element} {rest middle tokens : List Token}

theorem refl (tokens : List Token) : Keeps [] tokens tokens := ⟨.refl tokens, by simp⟩

theorem trans (first : Keeps elements middle tokens) (second : Keeps later rest middle) :
    Keeps (elements ++ later) rest tokens := by
  refine ⟨second.sublist.trans first.sublist, ?_⟩
  rw [List.flatMap_append]
  calc List.Perm (Token.texts rest ++ (elements.flatMap Element.typed ++ later.flatMap Element.typed))
        (Token.texts rest ++ later.flatMap Element.typed ++ elements.flatMap Element.typed) := by
          rw [List.append_assoc]
          exact List.perm_append_comm.append_left _
    List.Perm _ (Token.texts middle ++ elements.flatMap Element.typed) := second.perm.append_right _
    List.Perm _ (Token.texts tokens) := first.perm

/-- Tokens behind the scope of a match stay. -/
theorem append_right (keeps : Keeps elements rest tokens) (more : List Token) :
    Keeps elements (rest ++ more) (tokens ++ more) := by
  refine ⟨keeps.sublist.append_right more, ?_⟩
  rw [Token.texts_append, Token.texts_append, List.append_assoc]
  calc List.Perm (Token.texts rest ++ (Token.texts more ++ elements.flatMap Element.typed))
        (Token.texts rest ++ elements.flatMap Element.typed ++ Token.texts more) := by
          rw [List.append_assoc]
          exact List.perm_append_comm.append_left _
    List.Perm _ (Token.texts tokens ++ Token.texts more) := keeps.perm.append_right _

/-- An element that is taken out from between tokens. -/
theorem ofTyped (part : Part) (front typed back : List Token) :
    Keeps [.ofTyped part (Token.texts typed)] (front ++ back) (front ++ typed ++ back) := by
  constructor
  · rw [List.append_assoc]
    exact (List.Sublist.refl front).append (List.sublist_append_right typed back)
  · simp only [List.flatMap_cons, List.flatMap_nil, List.append_nil, Element.typed_ofTyped, Token.texts_append,
      List.append_assoc]
    exact List.perm_append_comm.append_left _

end Keeps

/-! ## Flags -/

namespace Flag

theorem keeps_of_valueFit? {c : Condition} {tokens : List Token} {fit : Fit} (fits : valueFit? c tokens = some fit) :
    Keeps fit.elements fit.rest tokens := by
  obtain ⟨flag, value, rest, rfl, -, -, rfl⟩ := Clause.valueFit?_eq_some_iff.1 fits
  exact .ofTyped _ [] [flag, value] rest

/-- A flag keeps tokens; a protocol does so if its options do. -/
theorem keeps_of_fit? (flag : Flag) {tokens : List Token} {fit : Fit} (fits : flag.fit? tokens = some fit) :
    Keeps fit.elements fit.rest tokens := by
  induction flag using Flag.induction generalizing tokens fit with
  | protocol p options ih =>
    rw [fit?, recognizers_eq_map] at fits
    obtain ⟨flag, name, rest, rfl, -, -, rfl⟩ := Clause.protocolFit?_eq_some_iff.1 fits
    have scope : ∀ recognizer ∈ options.map Flag.fit?, ∀ tokens fit, id recognizer tokens = some fit →
        Keeps fit.elements fit.rest tokens := by
      intro recognizer member tokens fit fits
      obtain ⟨option, isOption, rfl⟩ := List.mem_map.1 member
      exact ih option isOption fits
    have own : Keeps [.ofTyped (.condition (.protocol p) none) [flag.text, name.text]] rest (flag :: name :: rest) :=
      .ofTyped _ [] [flag, name] rest
    have nested := ((claims_greedy id (options.map Flag.fit?)
      (rest.takeWhile fun token => !Protocol.flag.accepts token.text)).compose .refl .trans scope).append_right
        (rest.dropWhile fun token => !Protocol.flag.accepts token.text)
    rw [List.takeWhile_append_dropWhile] at nested
    exact own.trans nested
  | port side p =>
    rw [fit?] at fits
    obtain ⟨front, flag, value, back, port, rfl, -, -, -, rfl⟩ := portFit?_eq_some_iff.1 fits
    simpa using Keeps.ofTyped _ front [flag, value] back
  | address side => exact keeps_of_valueFit? (by simpa [fit?] using fits)
  | interface direction => exact keeps_of_valueFit? (by simpa [fit?] using fits)
  | state => exact keeps_of_valueFit? (by simpa [fit?] using fits)
  | jump =>
    rw [fit?] at fits
    obtain ⟨flag, name, a, -, -, ⟨rest, -, rfl, rfl⟩ | ⟨option, target, rest, -, -, rfl, rfl⟩⟩ :=
      Clause.jumpFit?_cases fits
    · exact .ofTyped _ [] [flag, name] rest
    · exact .ofTyped _ [] [flag, name, option, target] rest

end Flag

/-! ## Components and walks -/

theorem Component.keeps_of_fit? {component : Component} {context : Context} {tokens : List Token} {found : Match}
    (fits : component.fit? context tokens = some found) : Keeps found.elements found.rest tokens := by
  cases fixed : component.isFlags with
  | false =>
    obtain ⟨part, typed, rest, rfl, -, -, rfl⟩ := fit?_sound fixed fits
    exact .ofTyped part [] typed rest
  | true =>
    cases component with
    | flags options =>
      simp only [fit?, Scan.fit?, Option.map_eq_some_iff, Option.ite_none_left_eq_some, Option.some.injEq] at fits
      obtain ⟨fit, ⟨-, rfl⟩, rfl⟩ := fits
      exact (claims_greedy Flag.fit? options tokens).compose .refl .trans fun flag _ _ _ => Flag.keeps_of_fit? flag
    | _ => cases fixed

theorem keeps_walk (components : List Component) (context : Context) (tokens : List Token) :
    let found := walk components context tokens
    Keeps found.elements found.rest tokens := by
  induction components generalizing context tokens with
  | nil => exact .refl tokens
  | cons component components ih =>
    rw [walk]
    cases fits : component.fit? context tokens with
    | none => exact .refl tokens
    | some found => exact (Component.keeps_of_fit? fits).trans (ih found.context found.rest)

/-! ## Whole texts -/

/-- The outcome of a grammar keeps tokens, as the walk of the signature does that it is taken from. -/
theorem keeps_parse (grammar : Grammar) (context : Context) (tokens : List Token) :
    let outcome := grammar.parse context tokens
    Keeps outcome.elements outcome.leftover tokens := by
  intro outcome
  obtain ⟨signature, -, chosen⟩ := List.mem_map.1 (choose_mem grammar context tokens)
  have own : Keeps (signature.walk context tokens).elements (signature.walk context tokens).rest tokens :=
    keeps_walk signature.components context tokens
  simpa only [outcome, parse, ← chosen, Outcome.ofAttempt, attempt] using own

/-- No token is lost or invented: those left are in the order of all, and with those of the typed form of every element
    they are all. -/
structure Conserves (elements : List Element) (rest tokens : List Token) : Prop where
  order : rest.Sublist tokens
  account : (Token.texts rest ++
    elements.flatMap fun element => Token.texts (Token.scan (Text.joinWords element.typed))).Perm (Token.texts tokens)

theorem Keeps.conserves {elements : List Element} {rest : List Token} {raw : String}
    (keeps : Keeps elements rest (Token.scan raw)) : Conserves elements rest (Token.scan raw) := by
  have typed : (elements.flatMap fun element => Token.texts (Token.scan (Text.joinWords element.typed))) =
      elements.flatMap Element.typed := by
    refine List.flatMap_congr fun element member => Token.texts_scan_joinWords fun word isTyped => ?_
    -- What was typed for an element are words of the text, so scanning it yields them again.
    have inside : word ∈ Token.texts (Token.scan raw) :=
      keeps.perm.subset (List.mem_append_right _ (List.mem_flatMap.2 ⟨element, member, isTyped⟩))
    obtain ⟨token, isToken, rfl⟩ := List.mem_map.1 inside
    exact Token.isWord_of_mem_scan isToken
  exact ⟨keeps.sublist, typed ▸ keeps.perm⟩

/-- The walk of a signature over the tokens of a text conserves them. -/
theorem Signature.walk_conserves (signature : Signature) (context : Context) (raw : String) :
    let found := signature.walk context (Token.scan raw)
    Conserves found.elements found.rest (Token.scan raw) :=
  (keeps_walk signature.components context (Token.scan raw)).conserves

/-- A grammar conserves the tokens of a text: every signature does so in its walk, and so does the outcome. -/
theorem parse_conserves (grammar : Grammar) (context : Context) (raw : String) :
    let tokens := Token.scan raw
    let outcome := grammar.parse context tokens
    (∀ signature ∈ grammar.signatures,
      let found := signature.walk context tokens
      Conserves found.elements found.rest tokens) ∧
      Conserves outcome.elements outcome.leftover tokens := by
  exact ⟨fun signature _ => signature.walk_conserves context raw, (keeps_parse grammar context (Token.scan raw)).conserves⟩

end PacketFilter.Grammar
