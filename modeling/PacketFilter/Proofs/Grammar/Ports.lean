import Mathlib.Data.List.Nodup
import PacketFilter.Grammar.Flag
import PacketFilter.Proofs.Grammar.Greedy
import PacketFilter.Proofs.Text.Literals
import PacketFilter.Proofs.Text.Words

/-!
# Ports among other words

A port may stand anywhere among the words that its protocol sees. Words in which ports are written first
and no other word can be taken for a port lose exactly their ports to a match. Main statements:
`ports_claimed`, what a match takes from such words, and `greedy_ports`, that it takes all readable ports,
the source first.
-/

namespace PacketFilter

/-! ## Port numbers -/

namespace Port

/-- The port number that a word stands for. -/
def number? (word : String) : Option UInt16 := Literal.port? word.toList

/-- A word for a port without needless zeros; other words are left as they are. -/
def plain (word : String) : String := ((number? word).map fun port => port.toNat.repr).getD word

theorem number?_repr (port : UInt16) : number? port.toNat.repr = some port :=
  Literal.port?_eq_some_iff.2 (Literal.isPort_repr port)

theorem plain_of_number? {word : String} {port : UInt16} (h : number? word = some port) :
    plain word = port.toNat.repr := by
  simp [plain, h]

theorem plain_of_none {word : String} (h : number? word = none) : plain word = word := by
  simp [plain, h]

theorem number?_plain (word : String) : number? (plain word) = number? word := by
  cases h : number? word with
  | none => rw [plain_of_none h, h]
  | some port => rw [plain_of_number? h, number?_repr]

@[simp] theorem plain_plain (word : String) : plain (plain word) = plain word := by
  cases h : number? word with
  | none => rw [plain_of_none h, plain_of_none h]
  | some port => rw [plain_of_number? h, plain_of_number? (number?_repr port)]

theorem number?_eq_none {word : String} {c : Char} {cs : List Char} (start : word.toList = c :: cs)
    (other : c.isDigit = false) : number? word = none := by
  have unread : Text.number? 65535 word.toList = none := by
    rw [Option.eq_none_iff_forall_ne_some]
    intro n read
    have digits := (Text.number?_eq_some_iff.1 read).2.1
    simp [digits c (by simp [start])] at other
  simp [number?, Literal.port?, unread]

end Port

/-- The spellings of the flag in front of a port. -/
def Side.portFlag (side : Side) : Spelling := (Condition.port side .tcp).spelling

theorem Condition.spelling_port (side : Side) (protocol : Protocol) :
    (Condition.port side protocol).spelling = side.portFlag := by
  cases side <;> rfl

theorem Spelling.accepts_iff {spelling : Spelling} {word : String} :
    spelling.accepts word = true ↔ word ∈ spelling.keyword :: spelling.aliases := by
  simp [Spelling.accepts]

@[simp] theorem Spelling.accepts_keyword (spelling : Spelling) : spelling.accepts spelling.keyword = true := by
  simp [Spelling.accepts]

theorem Side.eq_of_portFlag_accepts {side other : Side} (h : side.portFlag.accepts other.portFlag.keyword = true) :
    side = other := by
  cases side <;> cases other <;> first | rfl | exact absurd h (by decide)

theorem Side.number?_of_accepts {side : Side} {word : String} (h : side.portFlag.accepts word = true) :
    Port.number? word = none := by
  rw [Spelling.accepts_iff] at h
  cases side <;> simp only [portFlag, Condition.spelling, List.mem_cons, List.not_mem_nil, or_false] at h <;>
    rcases h with rfl | rfl <;> exact Port.number?_eq_none rfl (by decide)

namespace Grammar.Flag

/-! ## Words with ports in front -/

/-- The words of ports: the flag and the value of each. -/
def portWords (ports : List (Side × String)) : List String :=
  ports.flatMap fun (side, value) => [side.portFlag.keyword, value]

@[simp] theorem portWords_nil : portWords [] = [] := rfl

@[simp] theorem portWords_cons (side : Side) (value : String) (ports : List (Side × String)) :
    portWords ((side, value) :: ports) = side.portFlag.keyword :: value :: portWords ports := rfl

@[simp] theorem portWords_append (left right : List (Side × String)) :
    portWords (left ++ right) = portWords left ++ portWords right := by
  simp [portWords]

/-- The meanings of ports of a protocol. -/
def portParts (protocol : Protocol) (ports : List (Side × String)) : List Part :=
  ports.map fun (side, value) => .condition (.port side protocol) (some value)

/-- Words without a port: the first one is no number, and no number follows the flag of a port. -/
structure Portless (words : List String) : Prop where
  head : ∀ word ∈ words.head?, Port.number? word = none
  next : ∀ front flag value back, words = front ++ flag :: value :: back →
    ∀ side : Side, side.portFlag.accepts flag = true → Port.number? value = none

theorem portless_nil : Portless [] := ⟨by simp, by simp⟩

theorem Portless.cons {words : List String} (h : Portless words) {word : String} (other : Port.number? word = none) :
    Portless (word :: words) := by
  refine ⟨by simpa using other, fun front flag value back split side spells => ?_⟩
  cases front with
  | nil =>
    obtain ⟨-, rfl⟩ := List.cons.inj split
    exact h.head value (by simp)
  | cons _ front =>
    obtain ⟨-, split⟩ := List.cons.inj split
    exact h.next front flag value back split side spells

/-- Any word may follow one that is neither the flag of a port nor a number. -/
theorem Portless.cons_cons {words : List String} (h : Portless words) {word value : String}
    (number : Port.number? word = none) (unspelled : ∀ side : Side, side.portFlag.accepts word = false) :
    Portless (word :: value :: words) := by
  refine ⟨by simpa using number, fun front flag found back split side spells => ?_⟩
  rcases front with _ | ⟨_, _ | ⟨_, front⟩⟩
  · obtain ⟨rfl, -⟩ := List.cons.inj split
    simp [unspelled side] at spells
  · obtain ⟨-, -, rest⟩ : _ ∧ value = flag ∧ words = found :: back := by simpa using split
    exact h.head found (by simp [rest])
  · obtain ⟨-, -, rfl⟩ : _ ∧ _ ∧ words = front ++ flag :: found :: back := by simpa using split
    exact h.next front flag found back rfl side spells

theorem number?_head_portWords_append (ports : List (Side × String)) {tail : List String} (h : Portless tail)
    {word : String} (first : word ∈ (portWords ports ++ tail).head?) : Port.number? word = none := by
  cases ports with
  | nil => exact h.head word first
  | cons port ports =>
    obtain ⟨side, value⟩ := port
    obtain rfl : side.portFlag.keyword = word := by simpa using first
    exact side.number?_of_accepts side.portFlag.accepts_keyword

/-- A flag with a number behind it, among ports and words without a port, is one of the ports. -/
theorem portWords_split {ports : List (Side × String)} {tail : List String} (h : Portless tail)
    {front back : List String} {flag value : String} {side : Side} {port : UInt16}
    (split : portWords ports ++ tail = front ++ flag :: value :: back) (spells : side.portFlag.accepts flag = true)
    (number : Port.number? value = some port) :
    ∃ before after, ports = before ++ (side, value) :: after ∧ front ++ back = portWords (before ++ after) ++ tail := by
  induction ports generalizing front with
  | nil => simp [h.next front flag value back (by simpa using split) side spells] at number
  | cons first ports ih =>
    obtain ⟨other, text⟩ := first
    rw [portWords_cons] at split
    rcases front with _ | ⟨_, _ | ⟨_, front⟩⟩
    · obtain ⟨rfl, rfl, rfl⟩ : _ ∧ _ ∧ portWords ports ++ tail = back := by simpa using split
      obtain rfl := Side.eq_of_portFlag_accepts spells
      exact ⟨[], ports, rfl, rfl⟩
    · -- The value of the first port is taken for a flag, but no number follows it.
      obtain ⟨-, -, rest⟩ : _ ∧ _ ∧ portWords ports ++ tail = value :: back := by simpa using split
      have first : value ∈ (portWords ports ++ tail).head? := by simp [rest]
      simp [number?_head_portWords_append ports h first] at number
    · obtain ⟨rfl, rfl, rest⟩ : _ ∧ _ ∧ portWords ports ++ tail = front ++ flag :: value :: back := by simpa using split
      obtain ⟨before, after, rfl, others⟩ := ih rest
      exact ⟨(other, text) :: before, after, rfl, by simp [others]⟩

/-! ## Matching ports -/

theorem pairAt?_eq_some_iff {p : Token → Bool} {tokens front back : List Token} {first second : Token} :
    pairAt? p tokens = some (front, first, second, back) ↔
      tokens = front ++ first :: second :: back ∧ p first = true ∧ ∀ token ∈ front, p token = false := by
  induction tokens generalizing front with
  | nil => simp [pairAt?]
  | cons head tail ih =>
    cases tail with
    | nil => cases front <;> simp [pairAt?]
    | cons next rest =>
      by_cases here : p head = true
      · cases front with
        | nil => simp [pairAt?, here]; grind
        | cons other front => simp [pairAt?, here]; grind
      · cases front with
        | nil => simp [pairAt?, here]; grind
        | cons other front => simp [pairAt?, here]; grind

theorem portFit?_eq_some_iff {side : Side} {protocol : Protocol} {tokens : List Token} {fit : Fit} :
    portFit? side protocol tokens = some fit ↔
      ∃ front flag value back port, tokens = front ++ flag :: value :: back ∧
        side.portFlag.accepts flag.text = true ∧ (∀ token ∈ front, side.portFlag.accepts token.text = false) ∧
        Port.number? value.text = some port ∧
        fit = ⟨[.ofTyped (.condition (.port side protocol) (some port.toNat.repr)) [flag.text, value.text]],
          front ++ back⟩ := by
  simp only [portFit?, Condition.spelling_port, Option.bind_eq_bind, Option.bind_eq_some_iff, Option.pure_def,
    Option.some.injEq, Prod.exists]
  constructor
  · rintro ⟨front, flag, value, back, pair, port, number, rfl⟩
    obtain ⟨split, spells, earlier⟩ := pairAt?_eq_some_iff.1 pair
    exact ⟨front, flag, value, back, port, split, spells, earlier, number, rfl⟩
  · rintro ⟨front, flag, value, back, port, split, spells, earlier, number, rfl⟩
    exact ⟨front, flag, value, back, pairAt?_eq_some_iff.2 ⟨split, spells, earlier⟩, port, number, rfl⟩

section

variable {protocol : Protocol} {ports : List (Side × String)} {tail : List String} {tokens : List Token}

/-- A port that is matched in words with ports in front is one of these ports, and the others stay. -/
theorem portFit?_sound {side : Side} {fit : Fit} (shape : Token.texts tokens = portWords ports ++ tail)
    (h : Portless tail) (fits : portFit? side protocol tokens = some fit) :
    ∃ before value after, ports = before ++ (side, value) :: after ∧ (Port.number? value).isSome ∧
      parts fit.elements = portParts protocol [(side, Port.plain value)] ∧
      Token.texts fit.rest = portWords (before ++ after) ++ tail := by
  obtain ⟨front, flag, value, back, port, rfl, spells, -, number, rfl⟩ := portFit?_eq_some_iff.1 fits
  have split : portWords ports ++ tail =
      Token.texts front ++ flag.text :: value.text :: Token.texts back := by simp [← shape]
  obtain ⟨before, after, rfl, others⟩ := portWords_split h split spells number
  refine ⟨before, value.text, after, rfl, by simp [number], ?_, by rw [Token.texts_append, others]⟩
  simp [PacketFilter.parts, portParts, Port.plain_of_number? number]

/-- A readable port is matched if the ports before it are readable and of the other side. -/
theorem portFit?_complete {before after : List (Side × String)} {side : Side} {value : String}
    (shape : Token.texts tokens = portWords (before ++ (side, value) :: after) ++ tail)
    (readable : ∀ port ∈ before ++ (side, value) :: after, (Port.number? port.2).isSome)
    (first : side ∉ before.map Prod.fst) :
    ∃ fit, portFit? side protocol tokens = some fit ∧
      parts fit.elements = portParts protocol [(side, Port.plain value)] ∧
      Token.texts fit.rest = portWords (before ++ after) ++ tail := by
  obtain ⟨port, number⟩ := Option.isSome_iff_exists.1 (readable (side, value) (by simp))
  have split : Token.texts tokens = portWords before ++ side.portFlag.keyword :: value :: (portWords after ++ tail) := by
    simp [shape]
  obtain ⟨front, rest, rfl, frontTexts, behind⟩ := Token.texts_eq_append_iff.1 split
  obtain ⟨flag, rest, rfl, flagText, behind⟩ := Token.texts_eq_cons_iff.1 behind
  obtain ⟨found, back, rfl, foundText, backTexts⟩ := Token.texts_eq_cons_iff.1 behind
  have earlier : ∀ token ∈ front, side.portFlag.accepts token.text = false := by
    intro token member
    have inside : token.text ∈ portWords before := frontTexts ▸ List.mem_map_of_mem member
    obtain ⟨⟨other, text⟩, isPort, inside⟩ := List.mem_flatMap.1 inside
    have otherSide : side ≠ other := fun same => first (same ▸ List.mem_map_of_mem isPort)
    have inside : token.text = other.portFlag.keyword ∨ token.text = text := by simpa using inside
    rcases inside with spelled | spelled
    · rw [spelled, Bool.eq_false_iff]
      exact fun accepts => otherSide (Side.eq_of_portFlag_accepts accepts)
    · have number : (Port.number? token.text).isSome := spelled ▸ readable (other, text) (by simp [isPort])
      rw [Bool.eq_false_iff]
      intro accepts
      simp [side.number?_of_accepts accepts] at number
  refine ⟨_, portFit?_eq_some_iff.2 ⟨front, flag, found, back, port, rfl, by simp [flagText], earlier,
    foundText ▸ number, rfl⟩, ?_, ?_⟩
  · simp [PacketFilter.parts, portParts, Port.plain_of_number? number]
  · rw [Token.texts_append, frontTexts, backTexts, portWords_append, List.append_assoc]

/-- The ports that a match takes from words with ports in front are readable; the others stay in front. -/
theorem ports_claimed {sides : List Side} {scan : Scan Recognizer} (h : Portless tail)
    (claims : Claims id (sides.map fun side => portFit? side protocol) tokens scan)
    (shape : Token.texts tokens = portWords ports ++ tail) :
    ∃ claimed left, ports.Perm (claimed ++ left) ∧ (∀ port ∈ claimed, (Port.number? port.2).isSome) ∧
      Token.texts scan.rest = portWords left ++ tail := by
  generalize recognized : sides.map (fun side => portFit? side protocol) = options at claims
  induction claims generalizing sides ports with
  | stop => exact ⟨[], ports, .refl _, by simp, shape⟩
  | claim earlier fits later ih =>
    obtain ⟨front, back, rfl, rfl, split⟩ := List.map_eq_append_iff.1 recognized
    obtain ⟨side, rest, rfl, rfl, rfl⟩ := List.map_eq_cons_iff.1 split
    obtain ⟨before, value, after, rfl, readable, -, others⟩ := portFit?_sound shape h fits
    obtain ⟨claimed, left, perm, all, rest⟩ := @ih _ (front ++ rest) others (by simp)
    refine ⟨(side, value) :: claimed, left, List.perm_middle.trans (perm.cons _), ?_, rest⟩
    intro port member
    rcases List.mem_cons.1 member with rfl | member
    · exact readable
    · exact all port member

end

/-! ## The order of ports -/

/-- Ports in the order of a list of sides. -/
def bySide (sides : List Side) (ports : List (Side × String)) : List (Side × String) :=
  sides.flatMap fun side => ports.filter (·.1 == side)

theorem filter_side_eq_nil {side : Side} {ports : List (Side × String)} (absent : side ∉ ports.map Prod.fst) :
    ports.filter (·.1 == side) = [] := by
  refine List.filter_eq_nil_iff.2 fun port member same => absent ?_
  exact List.mem_map.2 ⟨port, member, beq_iff_eq.1 same⟩

theorem bySide_eq_nil {sides : List Side} {ports : List (Side × String)}
    (absent : ∀ side ∈ sides, side ∉ ports.map Prod.fst) : bySide sides ports = [] :=
  List.flatMap_eq_nil_iff.2 fun side member => filter_side_eq_nil (absent side member)

/-- The port of the first side that has one comes first. -/
theorem bySide_append_cons {front back : List Side} {side : Side} {before after : List (Side × String)} {value : String}
    (sides : (front ++ side :: back).Nodup) (ports : ((before ++ (side, value) :: after).map Prod.fst).Nodup)
    (absent : ∀ other ∈ front, other ∉ (before ++ (side, value) :: after).map Prod.fst) :
    bySide (front ++ side :: back) (before ++ (side, value) :: after) =
      (side, value) :: bySide (front ++ back) (before ++ after) := by
  have alone : side ∉ before.map Prod.fst ++ after.map Prod.fst := by
    rw [List.map_append, List.map_cons, List.nodup_middle] at ports
    exact (List.nodup_cons.1 ports).1
  have fresh : side ∉ front ++ back := (List.nodup_cons.1 (List.nodup_middle.1 sides)).1
  have absent' : ∀ other ∈ front, other ∉ (before ++ after).map Prod.fst := by
    intro other member inside
    refine absent other member ?_
    simp only [List.map_append, List.mem_append, List.map_cons, List.mem_cons] at inside ⊢
    exact inside.imp_right .inr
  have own : (before ++ (side, value) :: after).filter (·.1 == side) = [(side, value)] := by
    rw [List.mem_append, not_or] at alone
    simp [List.filter_append, filter_side_eq_nil alone.1, filter_side_eq_nil alone.2]
  have others : bySide back (before ++ (side, value) :: after) = bySide back (before ++ after) := by
    refine List.flatMap_congr fun other member => ?_
    have differ : (side == other) = false := beq_false_of_ne fun same => fresh (by simp [same, member])
    simp [List.filter_append, differ]
  calc bySide (front ++ side :: back) (before ++ (side, value) :: after)
      = bySide front (before ++ (side, value) :: after) ++ ((before ++ (side, value) :: after).filter (·.1 == side) ++
          bySide back (before ++ (side, value) :: after)) := by simp [bySide]
    _ = (side, value) :: bySide back (before ++ after) := by rw [bySide_eq_nil absent, own, others]; rfl
    _ = (side, value) :: (bySide front (before ++ after) ++ bySide back (before ++ after)) := by
        rw [bySide_eq_nil absent', List.nil_append]
    _ = (side, value) :: bySide (front ++ back) (before ++ after) := by simp [bySide]

/-- Ports as a match writes them: the source first, and numbers without needless zeros. -/
def tidyPorts (ports : List (Side × String)) : List (Side × String) :=
  (bySide [.source, .destination] ports).map fun (side, value) => (side, Port.plain value)

theorem bySide_perm (ports : List (Side × String)) : (bySide [.source, .destination] ports).Perm ports := by
  have other : (fun port : Side × String => port.1 == .destination) = fun port => !(port.1 == .source) := by
    funext port
    obtain ⟨side, _⟩ := port
    cases side <;> rfl
  simpa [bySide, other] using List.filter_append_perm (fun port : Side × String => port.1 == .source) ports

theorem tidyPorts_perm (ports : List (Side × String)) :
    (tidyPorts ports).Perm (ports.map fun (side, value) => (side, Port.plain value)) :=
  (bySide_perm ports).map _

theorem tidyPorts_tidyPorts (ports : List (Side × String)) : tidyPorts (tidyPorts ports) = tidyPorts ports := by
  have apart {a b : Side} (differ : a ≠ b) : ports.filter (fun port => port.1 == a && port.1 == b) = [] := by
    refine List.filter_eq_nil_iff.2 fun port _ both => differ ?_
    rw [Bool.and_eq_true, beq_iff_eq, beq_iff_eq] at both
    exact both.1.symm.trans both.2
  have first := apart (a := .source) (b := .destination) (by decide)
  have second := apart (a := .destination) (b := .source) (by decide)
  simp [tidyPorts, bySide, List.filter_map, Function.comp_def, List.filter_filter, first, second]

section

variable {protocol : Protocol} {ports : List (Side × String)} {tail : List String} {tokens : List Token}

/-- A side that fits no words with readable ports in front has no port there. -/
theorem absent_of_misses {side : Side} (shape : Token.texts tokens = portWords ports ++ tail)
    (readable : ∀ port ∈ ports, (Port.number? port.2).isSome) (misses : portFit? side protocol tokens = none) :
    side ∉ ports.map Prod.fst := by
  intro member
  obtain ⟨sides, others, split, first⟩ := List.eq_append_cons_of_mem member
  obtain ⟨before, rest, rfl, rfl, behind⟩ := List.map_eq_append_iff.1 split
  obtain ⟨⟨_, value⟩, after, rfl, rfl, rfl⟩ := List.map_eq_cons_iff.1 behind
  obtain ⟨fit, fits, -⟩ := @portFit?_complete protocol _ _ _ _ _ _ shape readable first
  simp [fits] at misses

/-- A match takes all readable ports of different sides, in the order of the sides. -/
theorem claims_bySide {sides : List Side} {scan : Scan Recognizer} (h : Portless tail)
    (claims : Claims id (sides.map fun side => portFit? side protocol) tokens scan) (distinct : sides.Nodup)
    (shape : Token.texts tokens = portWords ports ++ tail)
    (readable : ∀ port ∈ ports, (Port.number? port.2).isSome) (single : (ports.map Prod.fst).Nodup)
    (among : ∀ port ∈ ports, port.1 ∈ sides) :
    parts scan.elements = portParts protocol ((bySide sides ports).map fun (side, value) => (side, Port.plain value)) ∧
      Token.texts scan.rest = tail := by
  generalize recognized : sides.map (fun side => portFit? side protocol) = options at claims
  induction claims generalizing sides ports with
  | @stop options tokens misses =>
    have absent : ∀ side ∈ sides, side ∉ ports.map Prod.fst := by
      intro side member
      have miss : portFit? side protocol tokens = none := misses (portFit? side protocol) (recognized ▸ List.mem_map_of_mem member)
      exact absent_of_misses shape readable miss
    obtain rfl : ports = [] := List.eq_nil_iff_forall_not_mem.2 fun port member =>
      absent port.1 (among port member) (List.mem_map_of_mem member)
    exact ⟨by simp [bySide_eq_nil absent, portParts, PacketFilter.parts], by simpa using shape⟩
  | claim earlier fits later ih =>
    obtain ⟨front, back, rfl, rfl, split⟩ := List.map_eq_append_iff.1 recognized
    obtain ⟨side, rest, rfl, rfl, rfl⟩ := List.map_eq_cons_iff.1 split
    obtain ⟨before, value, after, rfl, -, meaning, others⟩ := portFit?_sound shape h fits
    have absent : ∀ other ∈ front, other ∉ (before ++ (side, value) :: after).map Prod.fst := by
      intro other member
      have miss : portFit? other protocol _ = none := earlier _ (List.mem_map_of_mem member)
      exact absent_of_misses shape readable miss
    have shorter : (before ++ after).Sublist (before ++ (side, value) :: after) := by simp
    have lone : side ∉ (before ++ after).map Prod.fst := by
      rw [List.map_append, List.map_cons, List.nodup_middle, ← List.map_append] at single
      exact (List.nodup_cons.1 single).1
    obtain ⟨found, left⟩ := @ih _ (front ++ rest) (distinct.sublist (by simp)) others
      (fun port member => readable port (shorter.subset member)) (single.sublist (shorter.map _))
      (fun port member => by
        have inside : port.1 ∈ front ++ side :: rest := among port (shorter.subset member)
        have differ : port.1 ≠ side := fun same => lone (same ▸ List.mem_map_of_mem member)
        simpa [differ] using inside)
      (by simp)
    refine ⟨?_, left⟩
    rw [bySide_append_cons distinct single absent]
    simp only [PacketFilter.parts, List.map_append, List.map_cons, portParts] at meaning found ⊢
    rw [meaning, found]
    rfl

/-- A match takes all ports in front of words without a port, the source before the destination. -/
theorem greedy_ports (h : Portless tail) (shape : Token.texts tokens = portWords ports ++ tail)
    (readable : ∀ port ∈ ports, (Port.number? port.2).isSome) (single : (ports.map Prod.fst).Nodup) :
    let scan := greedy id [portFit? .source protocol, portFit? .destination protocol] tokens
    parts scan.elements = portParts protocol (tidyPorts ports) ∧ Token.texts scan.rest = tail :=
  @claims_bySide _ _ _ _ [.source, .destination] _ h (claims_greedy id _ tokens) (by decide) shape readable single
    fun port _ => by cases port.1 <;> simp

/-- The ports that are matched in any tokens: at most one for a side, and without needless zeros. -/
theorem claims_ports {sides : List Side} {scan : Scan Recognizer} (distinct : sides.Nodup)
    (claims : Claims id (sides.map fun side => portFit? side protocol) tokens scan) :
    ∃ ports, parts scan.elements = portParts protocol ports ∧ (ports.map Prod.fst).Nodup ∧
      (∀ port ∈ ports, port.1 ∈ sides ∧ (Port.number? port.2).isSome ∧ Port.plain port.2 = port.2) ∧
      scan.rest.Sublist tokens := by
  generalize recognized : sides.map (fun side => portFit? side protocol) = options at claims
  induction claims generalizing sides with
  | stop => exact ⟨[], rfl, by simp, by simp, .refl _⟩
  | claim earlier fits later ih =>
    obtain ⟨front, back, rfl, rfl, split⟩ := List.map_eq_append_iff.1 recognized
    obtain ⟨side, rest, rfl, rfl, rfl⟩ := List.map_eq_cons_iff.1 split
    obtain ⟨ahead, flag, value, behind, port, rfl, -, -, number, rfl⟩ := portFit?_eq_some_iff.1 fits
    obtain ⟨ports, meaning, single, all, fewer⟩ := @ih (front ++ rest) (distinct.sublist (by simp)) (by simp)
    have fresh : side ∉ front ++ rest := (List.nodup_cons.1 (List.nodup_middle.1 distinct)).1
    refine ⟨(side, port.toNat.repr) :: ports, ?_, ?_, ?_, fewer.trans (by simp)⟩
    · simp only [PacketFilter.parts, portParts, List.map_append, List.map_cons] at meaning ⊢
      rw [meaning]
      rfl
    · rw [List.map_cons, List.nodup_cons]
      refine ⟨fun member => ?_, single⟩
      obtain ⟨⟨_, _⟩, inside, rfl⟩ := List.mem_map.1 member
      exact fresh (all _ inside).1
    · intro other member
      rcases List.mem_cons.1 member with rfl | member
      · exact ⟨by simp, by simp [Port.number?_repr], Port.plain_of_number? (Port.number?_repr port)⟩
      · have := all other member
        exact ⟨(List.Sublist.subset (by simp) this.1), this.2⟩

end

end Grammar.Flag

end PacketFilter
