import PacketFilter.Proofs.Grammar.FlagGroup

/-!
# Flags in any order

Flags can stand in any order, and the ports of a protocol between any two of the flags in front of the next protocol:
the same parts are recognized, and nothing is left. Main statements: `fit?_arranged`, the flag of the first group
leaves the others arranged, and `scan_of_claims`.
-/

namespace PacketFilter

open Grammar

namespace FlagGroup

/-- The protocol that is selected behind a group. -/
def selected? (current? : Option Protocol) (group : FlagGroup) : Option Protocol :=
  match group.part.condition? with
  | some (.protocol p) => some p
  | _ => current?

/-- Every port among groups is one of the protocol selected last. -/
def Bound : Option Protocol → List FlagGroup → Prop
  | _, [] => True
  | current?, group :: groups =>
    (∀ side p, group.part.condition? = some (.port side p) → current? = some p) ∧ Bound (group.selected? current?) groups

/-- Groups in an order in which they can be typed: no two of one condition, the ports behind their protocols. The name
    of an interface is not one of a flag. -/
structure Arranged (groups : List FlagGroup) : Prop where
  single : (groups.map (·.part.condition?)).Nodup
  bound : Bound none groups
  plain : ∀ group ∈ groups, ∀ direction name, group.part = .condition (.interface direction) (some name) →
    name.toList.head? ≠ some '-'

theorem selected?_of_not {group : FlagGroup} (other : group.isProtocol = false) (current? : Option Protocol) :
    group.selected? current? = current? := by
  unfold isProtocol at other
  unfold selected?
  cases own : group.part.condition? with
  | none => rfl
  | some c => cases c <;> simp_all

theorem selected?_of_isProtocol {group : FlagGroup} (isProtocol : group.isProtocol = true) :
    ∃ p, group.part.condition? = some (.protocol p) ∧ ∀ current?, group.selected? current? = some p := by
  obtain ⟨p, own⟩ := exists_of_isProtocol isProtocol
  exact ⟨p, own, fun current? => by rw [selected?, own]⟩

theorem Bound.port_of_takeWhile {p : Protocol} {groups : List FlagGroup} (bound : Bound (some p) groups) :
    ∀ group ∈ groups.takeWhile (fun group => !group.isProtocol), group.isPort = true →
      ∃ side, group.part.condition? = some (.port side p) := by
  induction groups with
  | nil => simp
  | cons group groups ih =>
    obtain ⟨own, later⟩ := bound
    intro other member isPort
    cases isProtocol : group.isProtocol with
    | true => simp [isProtocol] at member
    | false =>
      rw [List.takeWhile_cons_of_pos (by simp [isProtocol])] at member
      rw [selected?_of_not isProtocol] at later
      rcases List.mem_cons.1 member with rfl | inside
      · obtain ⟨side, q, same⟩ := isPort_iff.1 isPort
        obtain rfl : p = q := Option.some.inj (own side q same)
        exact ⟨side, same⟩
      · exact ih later other inside isPort

/-- Without the ports of the protocol in front, the others are still bound. -/
theorem Bound.without {current? : Option Protocol} {groups : List FlagGroup} (bound : Bound current? groups) :
    Bound none ((groups.takeWhile fun group => !group.isProtocol).filter (fun group => !group.isPort) ++
      groups.dropWhile fun group => !group.isProtocol) := by
  induction groups generalizing current? with
  | nil => trivial
  | cons group groups ih =>
    obtain ⟨own, later⟩ := bound
    cases isProtocol : group.isProtocol with
    | true =>
      obtain ⟨p, isOwn, selected⟩ := selected?_of_isProtocol isProtocol
      rw [List.takeWhile_cons_of_neg (by simp [isProtocol]), List.dropWhile_cons_of_neg (by simp [isProtocol])]
      refine ⟨fun side q same => ?_, ?_⟩
      · rw [isOwn] at same
        cases same
      · rw [selected] at later ⊢
        exact later
    | false =>
      rw [List.takeWhile_cons_of_pos (by simp [isProtocol]), List.dropWhile_cons_of_pos (by simp [isProtocol])]
      cases isPort : group.isPort with
      | true =>
        rw [List.filter_cons_of_neg (by simp [isPort])]
        exact ih later
      | false =>
        rw [List.filter_cons_of_pos (by simp [isPort])]
        refine ⟨fun side q same => ?_, ?_⟩
        · simp [FlagGroup.isPort, same] at isPort
        · rw [selected?_of_not isProtocol]
          exact ih later

theorem Arranged.sublist {groups left : List FlagGroup} (arranged : Arranged groups) (fewer : left.Sublist groups)
    (bound : Bound none left) : Arranged left :=
  ⟨arranged.single.sublist (fewer.map _), bound, fun group member => arranged.plain group (fewer.subset member)⟩

theorem Arranged.isPort_eq_false {group : FlagGroup} {groups : List FlagGroup} (arranged : Arranged (group :: groups)) :
    group.isPort = false := by
  rw [Bool.eq_false_iff]
  intro isPort
  unfold FlagGroup.isPort at isPort
  split at isPort
  · rename_i side p same
    have selected := arranged.bound.1 side p same
    cases selected
  · cases isPort

end FlagGroup

namespace Grammar.Flag

open FlagGroup

/-! ## The ports of a protocol -/

theorem portFit?_eq_none {side : Side} {p : Protocol} {tokens : List Token}
    (absent : ∀ word ∈ Token.texts tokens, side.portFlag.accepts word = false) : portFit? side p tokens = none := by
  rw [Option.eq_none_iff_forall_ne_some]
  intro fit fits
  obtain ⟨front, flag, value, back, port, rfl, spells, -⟩ := portFit?_eq_some_iff.1 fits
  rw [absent flag.text (by simp)] at spells
  cases spells

/-- The first port of a side among groups is matched, and the other groups stay. -/
theorem portFit?_group {side : Side} {p : Protocol} {before after : List FlagGroup} {group : FlagGroup}
    (isPort : group.part.condition? = some (.port side p)) (quiet : ∀ other ∈ before, other.IsQuiet)
    (first : ∀ other ∈ before, ∀ q, other.part.condition? ≠ some (.port side q)) {tokens : List Token}
    (shape : Token.texts tokens = allWords (before ++ group :: after)) :
    ∃ fit, portFit? side p tokens = some fit ∧ parts fit.elements = [group.part] ∧
      Token.texts fit.rest = allWords (before ++ after) := by
  obtain ⟨word, text, number, words, spells, reads, meaning⟩ := port_of_condition? isPort
  rw [allWords_append, allWords_cons, words] at shape
  obtain ⟨front, rest, rfl, frontTexts, fromFlag⟩ := Token.texts_eq_append_iff.1 shape
  obtain ⟨flag, rest, rfl, rfl, fromValue⟩ := Token.texts_eq_cons_iff.1 fromFlag
  obtain ⟨value, back, rfl, rfl, backTexts⟩ := Token.texts_eq_cons_iff.1 fromValue
  have earlier : ∀ token ∈ front, side.portFlag.accepts token.text = false := by
    intro token member
    rw [Bool.eq_false_iff]
    intro accepts
    have inside : token.text ∈ allWords before := frontTexts ▸ List.mem_map_of_mem member
    obtain ⟨other, isOther, inside⟩ := List.mem_flatMap.1 inside
    obtain ⟨q, same⟩ := portFlag_accepts (quiet other isOther) inside accepts
    exact first other isOther q same
  refine ⟨_, portFit?_eq_some_iff.2 ⟨front, flag, value, back, number, rfl, spells, earlier, reads, rfl⟩, ?_, ?_⟩
  · rw [meaning]
    rfl
  · rw [Token.texts_append, frontTexts, backTexts, allWords_append]
    rfl

/-- A side whose port is among groups takes it. -/
theorem portFit?_mem {side : Side} {p : Protocol} {groups : List FlagGroup} (quiet : ∀ group ∈ groups, group.IsQuiet)
    (own : ∀ group ∈ groups, ∀ q, group.part.condition? = some (.port side q) → q = p) {tokens : List Token}
    (shape : Token.texts tokens = allWords groups) :
    (portFit? side p tokens = none ∧ ∀ group ∈ groups, group.part.condition? ≠ some (.port side p)) ∨
      ∃ before group after fit, groups = before ++ group :: after ∧ group.part.condition? = some (.port side p) ∧
        portFit? side p tokens = some fit ∧ parts fit.elements = [group.part] ∧
        Token.texts fit.rest = allWords (before ++ after) := by
  cases found : groups.find? (fun group => group.part.condition? = some (.port side p)) with
  | none =>
    have absent : ∀ group ∈ groups, group.part.condition? ≠ some (.port side p) := by
      simpa [List.find?_eq_none] using found
    refine .inl ⟨portFit?_eq_none fun word member => ?_, absent⟩
    rw [shape] at member
    obtain ⟨group, isGroup, inside⟩ := List.mem_flatMap.1 member
    rw [Bool.eq_false_iff]
    intro accepts
    obtain ⟨q, same⟩ := portFlag_accepts (quiet group isGroup) inside accepts
    obtain rfl := own group isGroup q same
    exact absent group isGroup same
  | some group =>
    obtain ⟨isPort, before, after, rfl, first⟩ := List.find?_eq_some_iff_append.1 found
    have isPort : group.part.condition? = some (.port side p) := by simpa using isPort
    have earlier : ∀ other ∈ before, ∀ q, other.part.condition? ≠ some (.port side q) := by
      intro other member q same
      obtain rfl := own other (by simp [member]) q same
      simpa [same] using first other member
    obtain ⟨fit, fits, meaning, rest⟩ := portFit?_group isPort (fun other member => quiet other (by simp [member]))
      earlier shape
    exact .inr ⟨before, group, after, fit, rfl, isPort, fits, meaning, rest⟩

theorem own_protocol {p : Protocol} {sides : List Side} {groups : List FlagGroup}
    (own : ∀ group ∈ groups, group.isPort = true → ∃ side ∈ sides, group.part.condition? = some (.port side p)) (side : Side) :
    ∀ group ∈ groups, ∀ q, group.part.condition? = some (.port side q) → q = p := by
  intro group member q same
  have isPort : group.isPort = true := by simp [FlagGroup.isPort, same]
  obtain ⟨other, -, again⟩ := own group member isPort
  rw [same, Option.some.injEq, Condition.port.injEq] at again
  exact again.2

/-- A match takes the ports among groups, in some order, and leaves the others. -/
theorem ports_of_claims {p : Protocol} {sides : List Side} {tokens : List Token} {scan : Scan Recognizer}
    (claims : Claims id (sides.map fun side => portFit? side p) tokens scan) {groups : List FlagGroup}
    (quiet : ∀ group ∈ groups, group.IsQuiet) (single : (groups.map (·.part.condition?)).Nodup)
    (own : ∀ group ∈ groups, group.isPort = true → ∃ side ∈ sides, group.part.condition? = some (.port side p))
    (shape : Token.texts tokens = allWords groups) :
    (parts scan.elements).Perm ((groups.filter isPort).map FlagGroup.part) ∧
      Token.texts scan.rest = allWords (groups.filter fun group => !group.isPort) := by
  generalize recognized : sides.map (fun side => portFit? side p) = options at claims
  induction claims generalizing sides groups with
  | @stop options tokens misses =>
    have portless : ∀ group ∈ groups, group.isPort = false := by
      intro group member
      rw [Bool.eq_false_iff]
      intro isPort
      obtain ⟨side, inside, isSide⟩ := own group member isPort
      have miss : portFit? side p tokens = none := misses (portFit? side p) (recognized ▸ List.mem_map_of_mem inside)
      rcases portFit?_mem quiet (own_protocol own side) shape with ⟨-, absent⟩ | ⟨_, _, _, fit, -, -, fits, -⟩
      · exact absent group member isSide
      · rw [miss] at fits
        cases fits
    rw [List.filter_eq_nil_iff.2 (by simpa using portless), List.filter_eq_self.2 (by simpa using portless)]
    exact ⟨.nil, shape⟩
  | @claim earlier later option tokens fit scan misses fits claims ih =>
    obtain ⟨front, back, rfl, rfl, split⟩ := List.map_eq_append_iff.1 recognized
    obtain ⟨side, rest, rfl, rfl, rfl⟩ := List.map_eq_cons_iff.1 split
    rcases portFit?_mem quiet (own_protocol own side) shape with ⟨missed, -⟩ | ⟨before, group, after, found, rfl, isSide, fits', meaning, rest'⟩
    · have fits : portFit? side p tokens = some fit := fits
      rw [missed] at fits
      cases fits
    · obtain rfl : found = fit := Option.some.inj (fits'.symm.trans fits)
      have isPort : group.isPort = true := by simp [FlagGroup.isPort, isSide]
      have fewer : (before ++ after).Sublist (before ++ group :: after) := by simp
      have lone : group.part.condition? ∉ (before ++ after).map (·.part.condition?) := by
        rw [List.map_append, List.map_cons, List.nodup_middle, ← List.map_append] at single
        exact (List.nodup_cons.1 single).1
      have ownFewer : ∀ other ∈ before ++ after, other.isPort = true →
          ∃ otherSide ∈ front ++ rest, other.part.condition? = some (.port otherSide p) := by
        intro other member otherPort
        obtain ⟨otherSide, inside, same⟩ := own other (fewer.subset member) otherPort
        have differ : otherSide ≠ side := by
          rintro rfl
          exact lone (List.mem_map.2 ⟨other, member, same.trans isSide.symm⟩)
        exact ⟨otherSide, by simpa [differ] using inside, same⟩
      obtain ⟨others, left⟩ := @ih (front ++ rest) (before ++ after) (fun other member => quiet other (fewer.subset member))
        (single.sublist (fewer.map _)) ownFewer rest' (by simp)
      refine ⟨?_, ?_⟩
      · simp only [parts, List.map_append, List.filter_append, List.filter_cons, isPort, if_true, List.map_cons] at meaning others ⊢
        rw [meaning]
        exact (others.cons group.part).trans List.perm_middle.symm
      · simpa [isPort] using left

/-! ## Groups in front -/

/-- A protocol is recognized with its ports, and the groups behind it stay without them. -/
theorem fit?_protocol_group {p : Protocol} {group : FlagGroup} {groups : List FlagGroup}
    (isProtocol : group.part.condition? = some (.protocol p)) (arranged : Arranged (group :: groups)) {tokens : List Token}
    (shape : Token.texts tokens = allWords (group :: groups)) :
    ∃ fit ports left, (Flag.ofProtocol p).fit? tokens = some fit ∧ parts fit.elements = group.part :: ports ∧
      Token.texts fit.rest = allWords left ∧ (ports ++ left.map FlagGroup.part).Perm (groups.map FlagGroup.part) ∧
      Arranged left ∧ left.Sublist groups := by
  obtain ⟨word, text, words, spells, named, hasPorts, meaning⟩ := isNamed_of_condition? isProtocol
  have quiet : ∀ other ∈ groups, other.IsQuiet := fun other member =>
    isQuiet_of_plain (arranged.plain other (List.mem_cons_of_mem group member))
  have bound : Bound (some p) groups := by
    have later := arranged.bound.2
    rwa [FlagGroup.selected?, isProtocol] at later
  have single := (List.nodup_cons.1 arranged.single).2
  rw [allWords_cons, words] at shape
  obtain ⟨flag, rest, rfl, rfl, fromName⟩ := Token.texts_eq_cons_iff.1 shape
  obtain ⟨name, rest, rfl, rfl, behind⟩ := Token.texts_eq_cons_iff.1 fromName
  have behind : Token.texts rest = allWords groups := behind
  obtain ⟨inside, outside⟩ := span_allWords quiet
  let scope := groups.takeWhile fun group => !group.isProtocol
  let after := groups.dropWhile fun group => !group.isProtocol
  have split : scope ++ after = groups := List.takeWhile_append_dropWhile
  have fewer : scope.Sublist groups := List.takeWhile_sublist _
  have claims := claims_greedy id ([.source, .destination].map fun side => portFit? side p)
    (rest.takeWhile fun token => !Protocol.flag.accepts token.text)
  have scopeShape : Token.texts (rest.takeWhile fun token => !Protocol.flag.accepts token.text) = allWords scope := by
    rw [Clause.texts_takeWhile fun word => !Protocol.flag.accepts word, behind, inside]
  have own : ∀ other ∈ scope, other.isPort = true →
      ∃ side ∈ [Side.source, .destination], other.part.condition? = some (.port side p) := by
    intro other member isPort
    obtain ⟨side, same⟩ := bound.port_of_takeWhile other member isPort
    exact ⟨side, by cases side <;> simp, same⟩
  obtain ⟨perm, remains⟩ := ports_of_claims claims (fun other member => quiet other (fewer.subset member))
    (single.sublist (fewer.map _)) own scopeShape
  have left : (scope.filter (fun group => !group.isPort) ++ after).Sublist groups := by
    have shorter := (List.filter_sublist (p := fun group : FlagGroup => !group.isPort) (l := scope)).append_right after
    rwa [split] at shorter
  refine ⟨_, _, _, Clause.fit?_ofProtocol hasPorts spells named, by rw [meaning]; rfl, ?_, ?_, ?_, left⟩
  · rw [Token.texts_append, allWords_append, Clause.texts_dropWhile fun word => !Protocol.flag.accepts word, behind,
      outside]
    exact congrArg (· ++ _) remains
  · have whole := (List.filter_append_perm isPort scope).append_right after
    rw [split, List.append_assoc] at whole
    have parted := whole.map FlagGroup.part
    rw [List.map_append] at parted
    exact (perm.append_right _).trans parted
  · exact (arranged.sublist (left.cons group) bound.without)

/-- The flag of the first group takes it, and a protocol its ports with it; the others stay arranged. -/
theorem fit?_arranged {flag : Flag} (member : flag ∈ stockFlags) {group : FlagGroup} {groups : List FlagGroup}
    (own : flag.condition? = group.part.condition?) (arranged : Arranged (group :: groups)) {tokens : List Token}
    (shape : Token.texts tokens = allWords (group :: groups)) :
    ∃ fit left, flag.fit? tokens = some fit ∧ Token.texts fit.rest = allWords left ∧
      (parts fit.elements ++ left.map FlagGroup.part).Perm ((group :: groups).map FlagGroup.part) ∧
      Arranged left ∧ left.Sublist groups := by
  cases isProtocol : group.isProtocol with
  | true =>
    obtain ⟨p, same⟩ := exists_of_isProtocol isProtocol
    obtain ⟨fit, ports, left, fits, meaning, rest, perm, still, fewer⟩ := fit?_protocol_group same arranged shape
    obtain ⟨-, -, -, -, -, hasPorts, -⟩ := isNamed_of_condition? same
    have isOwn : flag = .ofProtocol p := eq_of_condition? member (ofProtocol_mem hasPorts) (own.trans same)
    refine ⟨fit, left, isOwn ▸ fits, rest, ?_, still, fewer⟩
    rw [meaning]
    exact perm.cons group.part
  | false =>
    obtain ⟨fit, fits, meaning, rest⟩ := fit?_group own arranged.isPort_eq_false isProtocol shape
    refine ⟨fit, groups, fits, rest, by rw [meaning]; rfl, arranged.sublist (List.sublist_cons_self group groups) ?_, .refl _⟩
    have later := arranged.bound.2
    rwa [selected?_of_not isProtocol] at later

/-- Arranged groups are recognized as their parts, and nothing is left. -/
theorem scan_of_claims {flags : List Flag} {tokens : List Token} {scan : Scan Flag}
    (claims : Claims Flag.fit? flags tokens scan) (stock : flags.Sublist stockFlags) {groups : List FlagGroup}
    (arranged : Arranged groups)
    (among : ∀ group ∈ groups, group.isPort = false → ∃ flag ∈ flags, flag.condition? = group.part.condition?)
    (shape : Token.texts tokens = allWords groups) :
    (parts scan.elements).Perm (groups.map FlagGroup.part) ∧ scan.rest = [] := by
  induction claims generalizing groups with
  | @stop options tokens misses =>
    cases groups with
    | nil =>
      obtain rfl : tokens = [] := List.map_eq_nil_iff.1 shape
      exact ⟨.nil, rfl⟩
    | cons group groups =>
      obtain ⟨flag, inside, own⟩ := among group (by simp) arranged.isPort_eq_false
      obtain ⟨fit, -, fits, -⟩ := fit?_arranged (stock.subset inside) own arranged shape
      rw [misses flag inside] at fits
      cases fits
  | @claim before after flag tokens fit scan earlier fits later ih =>
    cases groups with
    | nil =>
      obtain rfl : tokens = [] := List.map_eq_nil_iff.1 shape
      rw [fit?_nil] at fits
      cases fits
    | cons group groups =>
      have member : flag ∈ stockFlags := stock.subset (by simp)
      have own := condition?_of_fit? member arranged.isPort_eq_false shape fits
      obtain ⟨found, left, fits', rest, perm, still, fewer⟩ := fit?_arranged member own arranged shape
      obtain rfl : found = fit := Option.some.inj (fits'.symm.trans fits)
      have amongLeft : ∀ other ∈ left, other.isPort = false →
          ∃ flag ∈ before ++ after, flag.condition? = other.part.condition? := by
        intro other inside front
        obtain ⟨flag', isFlag, same⟩ := among other (List.mem_cons_of_mem _ (fewer.subset inside)) front
        have differ : flag' ≠ flag := by
          rintro rfl
          refine (List.nodup_cons.1 arranged.single).1 (List.mem_map.2 ⟨other, fewer.subset inside, ?_⟩)
          exact same.symm.trans own
        exact ⟨flag', by simpa [differ] using isFlag, same⟩
      obtain ⟨others, done⟩ := ih (List.Sublist.trans (by simp) stock) still amongLeft rest
      refine ⟨?_, done⟩
      simp only [parts, List.map_append] at perm others ⊢
      exact (others.append_left _).trans perm

end Grammar.Flag

end PacketFilter
