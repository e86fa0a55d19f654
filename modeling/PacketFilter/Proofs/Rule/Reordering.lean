import PacketFilter.Proofs.Grammar.Arrangement
import PacketFilter.Proofs.Rule.RoundTrip

/-!
# Rules typed in another order

Texts with the same header and the same flags, in any order and spelling, are matched completely and decide alike.
Main statement: `Rule.arranged_texts`.
-/

namespace PacketFilter

open Grammar

/-- A text is typed as a header and, in some order, flags that mean the given parts. -/
def IsTyped (table : Table) (command : Command) (chain : Chain) (ps : List Part) (raw : String) : Prop :=
  ∃ front groups, IsHeader table command chain front ∧ FlagGroup.Arranged groups ∧
    (groups.map FlagGroup.part).Perm ps ∧ Token.texts (Token.scan raw) = front ++ FlagGroup.allWords groups

section

variable {table : Table} {command : Command} {chain : Chain} {ps : List Part} {raw : String}

/-- A typed text is matched completely, unless another table is known. -/
theorem IsTyped.parse (typed : IsTyped table command chain ps raw) {context : Context}
    (known : ∀ own ∈ context.table?, own = table) :
    let outcome := stock.parse context (Token.scan raw)
    outcome.complete = true ∧ (parts outcome.elements).Perm (headerParts table command chain ++ ps) ∧
      outcome.context = ⟨some table, some chain⟩ := by
  intro outcome
  obtain ⟨front, groups, isHeader, arranged, same, words⟩ := typed
  obtain ⟨whole, meaning, rest, resolved⟩ := walk_of_isHeader isHeader known words
  obtain ⟨perm, done⟩ := Flag.scan_of_claims (claims_greedy Flag.fit? stockFlags _) (List.Sublist.refl _) arranged
    (fun group _ front => Flag.exists_of_group front) rest
  obtain ⟨ends, result⟩ := parse_stock context (Token.scan raw)
  rw [if_pos whole] at result
  refine ⟨result.2.2 done, ?_, ends.trans resolved⟩
  rw [result.1, ← meaning, parts, List.map_append]
  exact (perm.trans same).append_left _

theorem perm_eq_of_length {α : Type} {as bs : List α} (perm : as.Perm bs) (short : as.length ≤ 1) : as = bs := by
  match as with
  | [] => exact perm.nil_eq
  | [a] => exact (List.singleton_perm.1 perm)

/-- Parts in any order decide alike, as at most one of the flags is a jump. -/
theorem IsTyped.run?_eq (typed : IsTyped table command chain ps raw) {qs : List Part}
    (perm : qs.Perm (headerParts table command chain ++ ps)) (packet : Packet) :
    Part.run? qs packet = Part.run? (headerParts table command chain ++ ps) packet := by
  obtain ⟨front, groups, -, arranged, same, -⟩ := typed
  refine Part.run?_of_perm perm (perm_eq_of_length (perm.filterMap Part.action?) ?_) packet
  have header : (headerParts table command chain).filterMap Part.action? = [] := by simp [headerParts, Part.action?]
  rw [(perm.filterMap Part.action?).length_eq, List.filterMap_append, header, List.nil_append,
    ← (same.filterMap Part.action?).length_eq]
  refine Part.length_filterMap_action? ?_
  rw [List.map_map]
  exact arranged.single

/-- The rule of a typed text has its parts in some order, and its text is matched completely. -/
theorem IsTyped.parse_new (typed : IsTyped table command chain ps raw) :
    let rule := Rule.new stock .unknown raw
    (rule.parse? false).isSome = true ∧ rule.parts.Perm (headerParts table command chain ++ ps) := by
  intro rule
  have first : ∀ own ∈ Context.unknown.table?, own = table := by simp [Context.unknown]
  have again : ∀ own ∈ (Context.mk (some table) (some chain)).table?, own = table := by simp
  obtain ⟨-, perm, resolved⟩ := typed.parse first
  obtain ⟨complete, -⟩ := typed.parse again
  obtain ⟨elements, context⟩ := Rule.new_stock .unknown raw
  have settled : Context.unknown.settled = .unknown := by decide
  rw [settled] at elements context
  constructor
  · rw [Rule.parse?, Rule.grammar_new, Rule.raw_new, context, resolved, Grammar.parse?]
    simp [complete]
  · rw [Rule.parts, elements]
    exact perm

end

namespace Rule

/-- Texts that are typed as one header and the same flags are matched completely, recognized as the same parts up to
    their order, and decide alike on every packet. -/
theorem arranged_texts {table : Table} {command : Command} {chain : Chain} {ps : List Part} {raw other : String}
    (typed : IsTyped table command chain ps raw) (again : IsTyped table command chain ps other) :
    let rule := new stock .unknown raw
    let next := new stock .unknown other
    (rule.parse? false).isSome = true ∧ (next.parse? false).isSome = true ∧ rule.parts.Perm next.parts ∧
      ∀ packet, rule.run? packet = next.run? packet := by
  intro rule next
  obtain ⟨complete, perm⟩ := typed.parse_new
  obtain ⟨complete', perm'⟩ := again.parse_new
  refine ⟨complete, complete', perm.trans perm'.symm, fun packet => ?_⟩
  exact (typed.run?_eq perm packet).trans (again.run?_eq perm' packet).symm

theorem arranged_redirect :
    let ps : List Part := [.condition (.protocol .tcp) none, .condition (.port .destination .tcp) (some "80"),
      .condition (.interface .inward) (some "eth0"), .action (.nat .destination) (some "10.0.0.2:8080")]
    let raw := "iptables -t NAT -A PREROUTING -i eth0 -p tcp --dport 80 -j DNAT --to-destination 10.0.0.2:8080"
    let other := "iptables --table nat -A PREROUTING --protocol TCP -j DNAT --to-destination 10.0.0.2:8080 --destination-port 080 --in-interface eth0"
    IsTyped .nat .append .prerouting ps raw ∧ IsTyped .nat .append .prerouting ps other ∧
      let rule := new stock .unknown raw
      let next := new stock .unknown other
      (rule.parse? false).isSome = true ∧ (next.parse? false).isSome = true ∧ rule.parts.Perm next.parts ∧
        ∀ packet, rule.run? packet = next.run? packet := by
  intro ps raw other
  have typed : IsTyped .nat .append .prerouting ps raw := by
    refine ⟨_, [⟨_, _, @Part.SpelledAs.value (.interface .inward) "-i" "eth0" (by decide) (by decide) (by decide)⟩,
      ⟨_, _, @Part.SpelledAs.protocol .tcp "-p" "tcp" (by decide) (by decide) (by decide)⟩,
      ⟨_, _, @Part.SpelledAs.port .destination .tcp "--dport" "80" 80 (by decide) (by decide)⟩,
      ⟨_, _, @Part.SpelledAs.redirect (.nat .destination) "-j" "--to-destination" "10.0.0.2:8080" (by decide) (by decide)
        (by decide)⟩], ⟨by decide, "-t", "NAT", "-A", rfl, by decide, by decide, by decide⟩, ⟨by decide, ?_, ?_⟩, ?_, ?_⟩
    · simp [FlagGroup.Bound, Part.condition?, FlagGroup.selected?]
    · simp
    · decide
    · decide +kernel
  have again : IsTyped .nat .append .prerouting ps other := by
    refine ⟨_, [⟨_, _, @Part.SpelledAs.protocol .tcp "--protocol" "TCP" (by decide) (by decide) (by decide)⟩,
      ⟨_, _, @Part.SpelledAs.redirect (.nat .destination) "-j" "--to-destination" "10.0.0.2:8080" (by decide) (by decide)
        (by decide)⟩,
      ⟨_, _, @Part.SpelledAs.port .destination .tcp "--destination-port" "080" 80 (by decide) (by decide)⟩,
      ⟨_, _, @Part.SpelledAs.value (.interface .inward) "--in-interface" "eth0" (by decide) (by decide) (by decide)⟩],
      ⟨by decide, "--table", "nat", "-A", rfl, by decide, by decide, by decide⟩, ⟨by decide, ?_, ?_⟩, ?_, ?_⟩
    · simp [FlagGroup.Bound, Part.condition?, FlagGroup.selected?]
    · simp
    · decide
    · decide +kernel
  exact ⟨typed, again, arranged_texts typed again⟩

end Rule

end PacketFilter
