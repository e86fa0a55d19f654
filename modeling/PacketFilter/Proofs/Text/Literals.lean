import PacketFilter.Literal

/-!
# The languages of literals

The texts that a network, a target and a port number are read from, given by their grammar: numerals with any leading
zeros, four of them for an address, and a mark in front of a prefix length or a port. The address of a packet is read
from its written form only. Main statements: `number?_iff_isNumeral`, `quad?_eq_some_iff`, `Literal.recognizes_all` and
`Address.ofDottedQuad?_eq_some_iff`.
-/

namespace PacketFilter

namespace Text

/-! ## Numerals -/

/-- A numeral and its value: a digit, or a numeral with one more digit behind it. -/
inductive IsNumeral : List Char → Nat → Prop
  | digit {d : Nat} (small : d < 10) : IsNumeral [d.digitChar] d
  | concat {digits : List Char} {n d : Nat} (front : IsNumeral digits n) (small : d < 10) :
      IsNumeral (digits ++ [d.digitChar]) (10 * n + d)

/-- A numeral whose value does not exceed a limit. -/
def IsNumeralUpTo (limit : Nat) (digits : List Char) (n : Nat) : Prop := IsNumeral digits n ∧ n ≤ limit

namespace IsNumeral

variable {digits : List Char} {n : Nat}

theorem ne_nil (numeral : IsNumeral digits n) : digits ≠ [] := by
  cases numeral <;> simp

theorem isDigit (numeral : IsNumeral digits n) : ∀ c ∈ digits, c.isDigit = true := by
  induction numeral with
  | digit small => simp [small]
  | concat front small ih =>
    intro c member
    rcases List.mem_append.1 member with inFront | last
    · exact ih c inFront
    · obtain rfl := List.mem_singleton.1 last
      simp [small]

theorem value (numeral : IsNumeral digits n) : Nat.ofDigitChars 10 digits 0 = n := by
  induction numeral with
  | digit small => simp [Nat.ofDigitChars_cons_digitChar_of_lt_ten small]
  | concat front small ih => rw [Nat.ofDigitChars_append, ih, Nat.ofDigitChars_cons_digitChar_of_lt_ten small,
      Nat.ofDigitChars_nil]

end IsNumeral

theorem exists_digitChar {c : Char} (isDigit : c.isDigit = true) : ∃ d < 10, c = d.digitChar := by
  have bounds : 48 ≤ c.toNat ∧ c.toNat ≤ 57 := by
    simpa [Char.isDigit, UInt32.le_iff_toNat_le] using isDigit
  refine ⟨c.toNat - 48, by omega, ?_⟩
  have same : c.toNat = (c.toNat - 48).digitChar.toNat := by
    rw [Nat.toNat_digitChar_of_lt_ten (by omega)]
    omega
  exact Char.toNat_inj.1 same

theorem isNumeral_of_isDigit {digits : List Char} (nonempty : digits ≠ []) (all : ∀ c ∈ digits, c.isDigit = true) :
    IsNumeral digits (Nat.ofDigitChars 10 digits 0) := by
  -- The induction is on the number of digits, from the back.
  induction count : digits.length generalizing digits with
  | zero => exact absurd (List.length_eq_zero_iff.1 count) nonempty
  | succ count ih =>
    rcases List.eq_nil_or_concat digits with rfl | ⟨front, last, rfl⟩
    · exact absurd rfl nonempty
    · rw [List.concat_eq_append] at all count ⊢
      obtain ⟨d, small, rfl⟩ := exists_digitChar (all last (by simp))
      rw [Nat.ofDigitChars_append, Nat.ofDigitChars_cons_digitChar_of_lt_ten small, Nat.ofDigitChars_nil]
      by_cases single : front = []
      · subst single
        simpa using IsNumeral.digit small
      · refine .concat (ih single (fun c member => all c (by simp [member])) ?_) small
        simpa using count

theorem number?_iff_isNumeral {limit n : Nat} {digits : List Char} :
    number? limit digits = some n ↔ IsNumeralUpTo limit digits n := by
  rw [number?_eq_some_iff]
  constructor
  · rintro ⟨nonempty, all, rfl, small⟩
    exact ⟨isNumeral_of_isDigit nonempty all, small⟩
  · rintro ⟨numeral, small⟩
    exact ⟨numeral.ne_nil, numeral.isDigit, numeral.value, small⟩

/-- Zeros in front of a numeral do not change its value. -/
theorem IsNumeral.replicate_append {digits : List Char} {n : Nat} (numeral : IsNumeral digits n) (zeros : Nat) :
    IsNumeral (List.replicate zeros '0' ++ digits) n := by
  have all : ∀ c ∈ List.replicate zeros '0' ++ digits, c.isDigit = true := by
    intro c member
    rcases List.mem_append.1 member with zero | digit
    · rw [List.eq_of_mem_replicate zero]
      rfl
    · exact numeral.isDigit c digit
  have longer := isNumeral_of_isDigit (by simp [numeral.ne_nil]) all
  rwa [Nat.ofDigitChars_append, Nat.ofDigitChars_replicate_zero, Nat.mul_zero, numeral.value] at longer

theorem isNumeral_toDigits (n : Nat) : IsNumeral (Nat.toDigits 10 n) n := by
  have numeral := @isNumeral_of_isDigit (Nat.toDigits 10 n) Nat.toDigits_ne_nil fun c member =>
    Nat.isDigit_of_mem_toDigits (by decide) (by decide) member
  rwa [Nat.ofDigitChars_ten_toDigits] at numeral

/-- A number up to a limit is written as a numeral up to this limit. -/
theorem isNumeralUpTo_repr {limit n : Nat} (small : n ≤ limit) : IsNumeralUpTo limit n.repr.toList n := by
  rw [Nat.toList_repr]
  exact ⟨isNumeral_toDigits n, small⟩

/-- A numeral without a needless zero in front is the written form of its value. -/
theorem IsNumeral.eq_toDigits {digits : List Char} {n : Nat} (numeral : IsNumeral digits n)
    (plain : digits.length ≤ 1 ∨ digits.head? ≠ some '0') : digits = Nat.toDigits 10 n := by
  induction numeral with
  | digit small => exact (Nat.toDigits_of_lt_base small).symm
  | @concat digits n d front small ih =>
    have nonempty : 0 < digits.length := List.length_pos_iff.2 front.ne_nil
    have lead : digits.head? ≠ some '0' := by
      rcases plain with short | lead
      · rw [List.length_append, List.length_singleton] at short
        omega
      · rwa [List.head?_append, Option.or_of_isSome (List.isSome_head?.2 front.ne_nil)] at lead
    have same : digits = Nat.toDigits 10 n := ih (.inr lead)
    have positive : 0 < n := by
      refine Nat.pos_of_ne_zero fun zero => lead ?_
      rw [same, zero]
      rfl
    rw [← Nat.toDigits_append_toDigits (by decide) positive small, ← same, Nat.toDigits_of_lt_base small]

end Text

open Text (IsNumeral IsNumeralUpTo number?_iff_isNumeral)

/-! ## Addresses -/

/-- Four octets with single dots between them, and the address of their values. -/
inductive IsQuad (octet : List Char → Nat → Prop) : List Char → Address → Prop
  | dotted {as bs cs ds : List Char} {a b c d : Nat} (first : octet as a) (second : octet bs b) (third : octet cs c)
      (fourth : octet ds d) :
      IsQuad octet (as ++ '.' :: (bs ++ '.' :: (cs ++ '.' :: ds))) ⟨.ofNat a, .ofNat b, .ofNat c, .ofNat d⟩

/-- The address of four numerals up to 255. -/
def IsAddress : List Char → Address → Prop := IsQuad (IsNumeralUpTo 255)

/-- A mark stands behind no numeral. -/
theorem Text.IsNumeralUpTo.notMem {limit n : Nat} {digits : List Char} (numeral : IsNumeralUpTo limit digits n)
    {mark : Char} (other : mark.isDigit = false) : mark ∉ digits := by
  intro member
  rw [numeral.1.isDigit mark member] at other
  cases other

theorem IsAddress.notMem {cs : List Char} {address : Address} (spelled : IsAddress cs address) {mark : Char}
    (noDigit : mark.isDigit = false) (noDot : mark ≠ '.') : mark ∉ cs := by
  cases spelled with
  | dotted first second third fourth =>
    simp [first.notMem noDigit, second.notMem noDigit, third.notMem noDigit, fourth.notMem noDigit, noDot]

namespace Literal

/-- What is read with a reader of octets, none of which has a dot, are four octets with dots between them. -/
theorem quad?_eq_some_iff {octet? : List Char → Option Nat} {octet : List Char → Nat → Prop}
    (reads : ∀ digits n, octet? digits = some n ↔ octet digits n) (dotless : ∀ digits n, octet digits n → '.' ∉ digits)
    {cs : List Char} {address : Address} : quad? octet? cs = some address ↔ IsQuad octet cs address := by
  constructor
  · intro read
    unfold quad? at read
    split at read
    · rename_i as bs cs' ds parts
      simp only [Option.bind_eq_bind, Option.bind_eq_some_iff, Option.pure_def, Option.some.injEq] at read
      obtain ⟨a, first, b, second, c, third, d, fourth, rfl⟩ := read
      have whole : cs = as ++ '.' :: (bs ++ '.' :: (cs' ++ '.' :: ds)) := by
        have joined : ['.'].intercalate (cs.splitOn '.') = cs := List.intercalate_splitOn '.'
        rw [← joined, parts]
        simp
      rw [whole]
      exact .dotted ((reads _ _).1 first) ((reads _ _).1 second) ((reads _ _).1 third) ((reads _ _).1 fourth)
    · cases read
  · intro spelled
    cases spelled with
    | dotted first second third fourth =>
      rw [quad?, List.splitOn_append_cons_self_of_not_mem (dotless _ _ first),
        List.splitOn_append_cons_self_of_not_mem (dotless _ _ second),
        List.splitOn_append_cons_self_of_not_mem (dotless _ _ third), List.splitOn_eq_singleton (dotless _ _ fourth)]
      simp [(reads _ _).2 first, (reads _ _).2 second, (reads _ _).2 third, (reads _ _).2 fourth]

theorem address?_eq_some_iff {cs : List Char} {address : Address} :
    address? cs = some address ↔ IsAddress cs address :=
  quad?_eq_some_iff (fun _ _ => number?_iff_isNumeral) fun _ _ numeral => numeral.notMem (by decide)

end Literal

/-! ## Written addresses -/

theorem Address.toList_text (address : Address) :
    address.text.toList = Nat.toDigits 10 address.first.toNat ++ '.' :: (Nat.toDigits 10 address.second.toNat ++
      '.' :: (Nat.toDigits 10 address.third.toNat ++ '.' :: Nat.toDigits 10 address.fourth.toNat)) := by
  simp [Address.text]

/-- The written form of an address is four octets, if every octet may be written so. -/
theorem isQuad_text {octet : List Char → Nat → Prop} (written : ∀ n ≤ 255, octet (Nat.toDigits 10 n) n)
    (address : Address) : IsQuad octet address.text.toList address := by
  have each (value : UInt8) : octet (Nat.toDigits 10 value.toNat) value.toNat :=
    written _ (Nat.le_of_lt_succ value.toNat_lt)
  have spelled := IsQuad.dotted (each address.first) (each address.second) (each address.third) (each address.fourth)
  rw [← address.toList_text] at spelled
  simpa using spelled

/-- An octet is read strictly from its written form only. -/
theorem Literal.strictOctet?_eq_some_iff {digits : List Char} {n : Nat} :
    strictOctet? digits = some n ↔ n ≤ 255 ∧ digits = Nat.toDigits 10 n := by
  constructor
  · intro read
    unfold strictOctet? at read
    split at read
    · rename_i plain
      simp only [Bool.and_eq_true, Bool.or_eq_true, decide_eq_true_eq, bne_iff_ne] at plain
      obtain ⟨numeral, small⟩ := number?_iff_isNumeral.1 read
      exact ⟨small, numeral.eq_toDigits plain.2⟩
    · cases read
  · rintro ⟨small, rfl⟩
    have each : ∀ n < 256, strictOctet? (Nat.toDigits 10 n) = some n := by decide +kernel
    exact each n (Nat.lt_succ_of_le small)

/-- The address of a packet is read from the written form of the address only. -/
theorem Address.ofDottedQuad?_eq_some_iff {text : String} {address : Address} :
    ofDottedQuad? text = some address ↔ text = address.text := by
  let written : List Char → Nat → Prop := fun digits n => n ≤ 255 ∧ digits = Nat.toDigits 10 n
  have dotless : ∀ digits n, written digits n → '.' ∉ digits := by
    rintro _ n ⟨-, rfl⟩ dot
    exact absurd ((Text.isNumeral_toDigits n).isDigit '.' dot) (by decide)
  have reads : ofDottedQuad? text = some address ↔ IsQuad written text.toList address :=
    Literal.quad?_eq_some_iff (fun _ _ => Literal.strictOctet?_eq_some_iff) dotless
  rw [reads]
  constructor
  · intro spelled
    generalize whole : text.toList = cs at spelled
    cases spelled with
    | dotted first second third fourth =>
      obtain ⟨smallA, rfl⟩ := first
      obtain ⟨smallB, rfl⟩ := second
      obtain ⟨smallC, rfl⟩ := third
      obtain ⟨smallD, rfl⟩ := fourth
      have octet {n : Nat} (small : n ≤ 255) : (UInt8.ofNat n).toNat = n :=
        UInt8.toNat_ofNat_of_lt' (Nat.lt_succ_of_le small)
      refine String.toList_inj.1 ?_
      rw [whole, toList_text, octet smallA, octet smallB, octet smallC, octet smallD]
  · rintro rfl
    exact isQuad_text (fun n small => ⟨small, rfl⟩) address

theorem Address.text_inj {a b : Address} : a.text = b.text ↔ a = b := by
  constructor
  · intro same
    have read : ofDottedQuad? a.text = some b := ofDottedQuad?_eq_some_iff.2 same
    exact Option.some.inj ((ofDottedQuad?_eq_some_iff.2 rfl).symm.trans read)
  · rintro rfl
    rfl

/-! ## Languages -/

/-- A network is an address, of which all bits count, or an address with a numeral up to 32 behind a slash. -/
inductive IsNetwork : List Char → Network → Prop
  | host {cs : List Char} {address : Address} (front : IsAddress cs address) : IsNetwork cs ⟨address, 32⟩
  | withLength {cs digits : List Char} {address : Address} {n : Nat} (front : IsAddress cs address)
      (back : IsNumeralUpTo 32 digits n) : IsNetwork (cs ++ '/' :: digits) ⟨address, Fin.ofNat 33 n⟩

/-- A target is an address, or an address with a port number behind a colon. -/
inductive IsTarget : List Char → Target → Prop
  | host {cs : List Char} {address : Address} (front : IsAddress cs address) : IsTarget cs ⟨address, none⟩
  | withPort {cs digits : List Char} {address : Address} {n : Nat} (front : IsAddress cs address)
      (back : IsNumeralUpTo 65535 digits n) : IsTarget (cs ++ ':' :: digits) ⟨address, some (.ofNat n)⟩

/-- A port number is a numeral up to 65535. -/
inductive IsPort : List Char → UInt16 → Prop
  | numeral {digits : List Char} {n : Nat} (whole : IsNumeralUpTo 65535 digits n) : IsPort digits (.ofNat n)

/-- A reader accepts the texts of a language with their values; any other text is named in its error as a whole. -/
structure Recognizes {α : Type} (parse : String → Except LiteralError α) (form : LiteralForm)
    (spells : List Char → α → Prop) : Prop where
  accepts : ∀ text value, parse text = .ok value ↔ spells text.toList value
  rejects : ∀ text error, parse text = .error error ↔ (∀ value, ¬ spells text.toList value) ∧ error = ⟨text, form⟩

namespace Literal

theorem network?_eq_some_iff {cs : List Char} {network : Network} :
    network? cs = some network ↔ IsNetwork cs network := by
  constructor
  · intro read
    unfold network? at read
    split at read
    · rename_i front cut
      obtain rfl := Text.eq_of_cutAt_none cut
      obtain ⟨address, isAddress, rfl⟩ := Option.map_eq_some_iff.1 read
      exact .host (address?_eq_some_iff.1 isAddress)
    · rename_i front back cut
      obtain rfl := Text.eq_of_cutAt cut
      simp only [Option.bind_eq_bind, Option.bind_eq_some_iff, Option.pure_def, Option.some.injEq, length?,
        Option.map_eq_some_iff] at read
      obtain ⟨address, isAddress, _, ⟨n, isLength, rfl⟩, rfl⟩ := read
      exact .withLength (address?_eq_some_iff.1 isAddress) (number?_iff_isNumeral.1 isLength)
  · intro spelled
    cases spelled with
    | host front =>
      rw [network?, Text.cutAt_of_notMem (front.notMem (by decide) (by decide))]
      simp [address?_eq_some_iff.2 front]
    | withLength front back =>
      rw [network?, Text.cutAt_append_cons (front.notMem (by decide) (by decide))]
      simp [address?_eq_some_iff.2 front, length?, number?_iff_isNumeral.2 back]

theorem port?_eq_some_iff {cs : List Char} {port : UInt16} : port? cs = some port ↔ IsPort cs port := by
  rw [port?, Option.map_eq_some_iff]
  constructor
  · rintro ⟨n, read, rfl⟩
    exact .numeral (number?_iff_isNumeral.1 read)
  · rintro ⟨whole⟩
    exact ⟨_, number?_iff_isNumeral.2 whole, rfl⟩

theorem target?_eq_some_iff {cs : List Char} {target : Target} : target? cs = some target ↔ IsTarget cs target := by
  constructor
  · intro read
    unfold target? at read
    split at read
    · rename_i front cut
      obtain rfl := Text.eq_of_cutAt_none cut
      obtain ⟨address, isAddress, rfl⟩ := Option.map_eq_some_iff.1 read
      exact .host (address?_eq_some_iff.1 isAddress)
    · rename_i front back cut
      obtain rfl := Text.eq_of_cutAt cut
      simp only [Option.bind_eq_bind, Option.bind_eq_some_iff, Option.pure_def, Option.some.injEq] at read
      obtain ⟨address, isAddress, port, isPort, rfl⟩ := read
      cases port?_eq_some_iff.1 isPort with
      | numeral whole => exact .withPort (address?_eq_some_iff.1 isAddress) whole
  · intro spelled
    cases spelled with
    | host front =>
      rw [target?, Text.cutAt_of_notMem (front.notMem (by decide) (by decide))]
      simp [address?_eq_some_iff.2 front]
    | withPort front back =>
      rw [target?, Text.cutAt_append_cons (front.notMem (by decide) (by decide))]
      simp [address?_eq_some_iff.2 front, port?_eq_some_iff.2 (.numeral back)]

/-- A reader of characters that accepts a language makes a reader of texts that recognizes it. -/
theorem recognizes_of_reads {α : Type} {read? : List Char → Option α} {parse : String → Except LiteralError α}
    {form : LiteralForm} {spells : List Char → α → Prop}
    (accepted : ∀ text value, read? text.toList = some value → parse text = .ok value)
    (rejected : ∀ text, read? text.toList = none → parse text = .error ⟨text, form⟩)
    (reads : ∀ cs value, read? cs = some value ↔ spells cs value) : Recognizes parse form spells := by
  constructor
  · intro text value
    rw [← reads]
    constructor
    · intro parsed
      cases read : read? text.toList with
      | none => simp [rejected text read] at parsed
      | some other => simpa [accepted text other read] using parsed
    · exact accepted text value
  · intro text error
    cases read : read? text.toList with
    | none =>
      have unspelled (value : α) : ¬ spells text.toList value := by simp [← reads, read]
      simp [rejected text read, unspelled, eq_comm]
    | some value =>
      rw [accepted text value read]
      constructor
      · intro failed
        cases failed
      · rintro ⟨unspelled, -⟩
        exact absurd ((reads _ _).1 read) (unspelled value)

/-- A written target spells itself. -/
theorem isTarget_text (target : Target) : IsTarget target.text.toList target := by
  obtain ⟨address, port?⟩ := target
  have front : IsAddress address.text.toList address :=
    isQuad_text (fun n small => ⟨Text.isNumeral_toDigits n, small⟩) address
  cases port? with
  | none => exact .host front
  | some port =>
    have spelled := IsTarget.withPort front (Text.isNumeralUpTo_repr (Nat.le_of_lt_succ port.toNat_lt))
    rw [UInt16.ofNat_toNat] at spelled
    simpa [Target.text] using spelled

/-- A written port number spells itself. -/
theorem isPort_repr (port : UInt16) : IsPort port.toNat.repr.toList port := by
  have spelled := IsPort.numeral (Text.isNumeralUpTo_repr (Nat.le_of_lt_succ port.toNat_lt))
  rwa [UInt16.ofNat_toNat] at spelled

theorem recognizes_port : Recognizes Port.parse .port IsPort :=
  recognizes_of_reads (fun text port read => by rw [Port.parse, read]) (fun text unread => by rw [Port.parse, unread])
    fun _ _ => port?_eq_some_iff

theorem recognizes_network : Recognizes Network.parse .network IsNetwork :=
  recognizes_of_reads (fun text network read => by rw [Network.parse, read])
    (fun text unread => by rw [Network.parse, unread]) fun _ _ => network?_eq_some_iff

theorem recognizes_target : Recognizes Target.parse .target IsTarget :=
  recognizes_of_reads (fun text target read => by rw [Target.parse, read])
    (fun text unread => by rw [Target.parse, unread]) fun _ _ => target?_eq_some_iff

/-- Ports, networks and targets are read from exactly the texts of their languages; numerals may have any number of zeros
    in front, and the written form of a target is read as the target again. -/
theorem recognizes_all :
    Recognizes Port.parse .port IsPort ∧ Recognizes Network.parse .network IsNetwork ∧
      Recognizes Target.parse .target IsTarget ∧
      (∀ zeros digits n, IsNumeral digits n → IsNumeral (List.replicate zeros '0' ++ digits) n) ∧
      ∀ target : Target, Target.parse target.text = .ok target := by
  refine ⟨recognizes_port, recognizes_network, recognizes_target, ?_, ?_⟩
  · intro zeros digits n numeral
    exact numeral.replicate_append zeros
  · intro target
    exact (recognizes_target.accepts _ _).2 (isTarget_text target)

end Literal

end PacketFilter
