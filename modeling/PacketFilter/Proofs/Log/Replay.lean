import PacketFilter.Proofs.Log.Changes
import PacketFilter.Proofs.Store.Replay

/-!
# Replays in the log

What is noted while packets are sent through rules agrees with what becomes of them: each packet is noted for the rules
that are asked about it, up to the first one that decides, and a replay that the sink ends is noted up to the packet
that it refuses. Main statements: `run_cases`, `evaluate_eq`, `replayPackets_of_overflow` and `replay_of_ok`.
-/

namespace PacketFilter.Log

/-- Events that note how a rule ran on a packet. -/
def Event.IsRunning : Event → Prop
  | conditionFailed _ | targetNotApplied _ => True
  | _ => False

/-! ## One rule -/

theorem apply_cases (action : Action) (packet : Packet) (value : String) :
    apply action value = [] ∨
      ∃ error, apply action value = [.targetNotApplied error] ∧ action.apply packet value = .forward packet := by
  cases action with
  | nat side =>
    unfold apply Action.apply
    cases Target.parse value with
    | ok target => exact .inl rfl
    | error error => exact .inr ⟨error, rfl, rfl⟩
  | _ => exact .inl rfl

/-- A rule notes the first of its conditions that fails, and then has no verdict. Otherwise it notes at most that its
    target could not be read, and then the packet goes on as it is. -/
theorem run_cases (rule : Rule) (packet : Packet) :
    (∃ front part back, rule.parts = front ++ part :: back ∧ (∀ other ∈ front, other.fails packet = false) ∧
      part.fails packet = true ∧ run rule packet = [.conditionFailed part.display] ∧ rule.run? packet = none) ∨
    (∀ part ∈ rule.parts, part.fails packet = false) ∧ (run rule packet = [] ∨
      ∃ error, run rule packet = [.targetNotApplied error] ∧ rule.run? packet = some (.forward packet)) := by
  cases found : rule.parts.find? (Part.fails packet) with
  | some part =>
    obtain ⟨fails, front, back, split, holds⟩ := List.find?_eq_some_iff_append.1 found
    refine .inl ⟨front, part, back, split, by simpa using holds, fails, ?_, ?_⟩
    · rw [run, runParts, found]
    · have member : part ∈ rule.parts := by simp [split]
      rw [Rule.run?, Part.run?_eq, if_pos (List.any_eq_true.2 ⟨part, member, fails⟩)]
  | none =>
    have holds : ∀ part ∈ rule.parts, part.fails packet = false := by simpa using found
    refine .inr ⟨holds, ?_⟩
    rw [run, runParts, found, Rule.run?, Part.run?]
    cases Part.decide? packet none rule.parts with
    | none => exact .inl rfl
    | some decision =>
      obtain ⟨action, value⟩ := decision
      rcases apply_cases action packet value with silent | ⟨error, noted, unchanged⟩
      · exact .inl silent
      · exact .inr ⟨error, noted, congrArg some unchanged⟩

theorem isRunning_of_run {rule : Rule} {packet : Packet} : ∀ event ∈ run rule packet, event.IsRunning := by
  intro event member
  rcases run_cases rule packet with ⟨_, part, _, -, -, -, noted, -⟩ | ⟨-, silent | ⟨error, noted, -⟩⟩
  · rw [noted] at member
    obtain rfl := List.mem_singleton.1 member
    trivial
  · rw [silent] at member
    cases member
  · rw [noted] at member
    obtain rfl := List.mem_singleton.1 member
    trivial

/-! ## Rules in a row -/

/-- The rules that are asked about a packet: those up to the first one that decides. -/
def consulted (rules : List Rule) (packet : Packet) : List Rule :=
  match evaluate? rules packet with
  | some (index, _) => rules.take (index + 1)
  | none => rules

theorem evaluate_eq (packet : Packet) (rules : List Rule) :
    evaluate packet rules = (consulted rules packet).flatMap fun rule => run rule packet := by
  induction rules with
  | nil => rfl
  | cons rule rules ih =>
    rw [evaluate, ih]
    unfold consulted
    rw [evaluate?_cons]
    cases rule.run? packet with
    | some verdict => simp
    | none => cases evaluate? rules packet <;> simp

theorem isRunning_of_evaluate {packet : Packet} {rules : List Rule} : ∀ event ∈ evaluate packet rules, event.IsRunning := by
  intro event member
  rw [evaluate_eq] at member
  obtain ⟨rule, -, inside⟩ := List.mem_flatMap.1 member
  exact isRunning_of_run event inside

/-! ## Packets in a row -/

/-- The events of packets that are sent through rules. -/
def ofPackets (rules : List Rule) (packets : List Packet) : List Event :=
  packets.flatMap fun packet => evaluate packet rules

theorem replayPackets_cons (rules : List Rule) (limit? : Option Limit) (packet : Packet) (packets : List Packet)
    (fits : ∀ limit ∈ limit?, (Passage.of rules packet).output?.toList.length ≤ limit.room) :
    replayPackets rules limit? (packet :: packets) =
      evaluate packet rules ++
        replayPackets rules (limit?.map fun limit => limit.after (Passage.of rules packet).output?.toList.length) packets := by
  cases output : (Passage.of rules packet).output? with
  | none => cases limit? <;> simp [replayPackets, output, Limit.after]
  | some changed =>
    rcases limit? with _ | ⟨_ | room, error⟩
    · simp [replayPackets, output]
    · simp [output] at fits
    · simp [replayPackets, output, Limit.after]

/-- If the sink has room, all packets are noted. -/
theorem replayPackets_of_room {rules : List Rule} {limit? : Option Limit} {packets : List Packet}
    (room : ∀ limit ∈ limit?, (sent rules packets).length ≤ limit.room) :
    replayPackets rules limit? packets = ofPackets rules packets := by
  induction packets generalizing limit? with
  | nil => rfl
  | cons packet packets ih =>
    obtain ⟨first, others⟩ := room_cons room
    rw [replayPackets_cons rules limit? packet packets first, ih others]
    rfl

/-- If the sink has too little room, the last packet that is noted is the one that it refuses. -/
theorem replayPackets_of_overflow {rules : List Rule} {limit : Limit} {packets : List Packet}
    (overflow : limit.room < (sent rules packets).length) :
    ∃ front packet back, packets = front ++ packet :: back ∧ (sent rules front).length = limit.room ∧
      (Passage.of rules packet).output?.isSome ∧
      replayPackets rules (some limit) packets = ofPackets rules (front ++ [packet]) := by
  induction packets generalizing limit with
  | nil => simp [sent, passages] at overflow
  | cons packet packets ih =>
    rw [sent_cons, List.length_append] at overflow
    by_cases fits : (Passage.of rules packet).output?.toList.length ≤ limit.room
    · have later : (limit.after (Passage.of rules packet).output?.toList.length).room < (sent rules packets).length := by
        simp only [Limit.after]
        omega
      obtain ⟨front, refused, back, rfl, full, goesOn, events⟩ := ih later
      refine ⟨packet :: front, refused, back, rfl, ?_, goesOn, ?_⟩
      · simp only [Limit.after] at full
        rw [sent_cons, List.length_append]
        omega
      · rw [replayPackets_cons rules (some limit) packet _ (by simpa using fits), Option.map_some, events]
        rfl
    · cases output : (Passage.of rules packet).output? with
      | none => simp [output] at fits
      | some changed =>
        obtain ⟨room, error⟩ := limit
        obtain rfl : room = 0 := by simpa [output] using fits
        exact ⟨[], packet, packets, rfl, rfl, by simp [output], by simp [replayPackets, output, ofPackets]⟩

theorem isRunning_of_ofPackets {rules : List Rule} {packets : List Packet} :
    ∀ event ∈ ofPackets rules packets, event.IsRunning := by
  intro event member
  obtain ⟨packet, -, inside⟩ := List.mem_flatMap.1 member
  exact isRunning_of_evaluate event inside

theorem isRunning_of_replayPackets {rules : List Rule} {limit? : Option Limit} {packets : List Packet} :
    ∀ event ∈ replayPackets rules limit? packets, event.IsRunning := by
  by_cases room : ∀ limit ∈ limit?, (sent rules packets).length ≤ limit.room
  · rw [replayPackets_of_room room]
    exact isRunning_of_ofPackets
  · obtain ⟨limit, rfl, overflow⟩ : ∃ limit, limit? = some limit ∧ limit.room < (sent rules packets).length := by
      simpa using room
    obtain ⟨front, packet, -, -, -, -, events⟩ := replayPackets_of_overflow overflow
    rw [events]
    exact isRunning_of_ofPackets

/-! ## The chain of a store -/

section

variable {store : Store} {table : Table} {chain : Chain} {source : Except CaptureError (List Packet)}
  {limit? : Option Limit}

/-- A replay with a report has noted all packets, and notes the report behind them. -/
theorem replay_of_ok {report : Report} (done : (store.replay table chain source limit?).result = .ok report) :
    ∃ packets, source = .ok packets ∧
      let rules := (store.rules? table chain).getD []
      replay store table chain source limit? =
        ofPackets rules packets ++ [.chainReplayed table chain rules.length report] := by
  cases source with
  | error error => cases done
  | ok packets =>
    refine ⟨packets, rfl, ?_⟩
    have room : ∀ limit ∈ limit?, (sent ((store.rules? table chain).getD []) packets).length ≤ limit.room := by
      intro limit given
      obtain rfl : limit? = some limit := given
      by_contra full
      rw [Store.replay_packets, replay_of_overflow (Nat.lt_of_not_le full)] at done
      cases done
    rw [replay, done]
    simp only [replayPackets_of_room room]

/-- A replay that fails notes how rules ran, and nothing else. -/
theorem isRunning_of_replay {error : CaptureError} (failed : (store.replay table chain source limit?).result = .error error) :
    ∀ event ∈ replay store table chain source limit?, event.IsRunning := by
  cases source with
  | error error =>
    intro event member
    cases member
  | ok packets =>
    rw [replay, failed]
    simp only [List.append_nil]
    exact isRunning_of_replayPackets

/-- A replay notes no change of a store, and no rule as skipped. -/
theorem silent_of_replay :
    changes (replay store table chain source limit?) = [] ∧ skips (replay store table chain source limit?) = [] := by
  refine silent_of_forall fun event member => ?_
  have running (own : event.IsRunning) : event.change? = none ∧ event.skipped? = none := by
    cases event <;> first | exact ⟨rfl, rfl⟩ | exact own.elim
  cases done : (store.replay table chain source limit?).result with
  | error error => exact running (isRunning_of_replay done event member)
  | ok report =>
    obtain ⟨packets, rfl, events⟩ := replay_of_ok done
    rw [events] at member
    rcases List.mem_append.1 member with inside | last
    · exact running (isRunning_of_ofPackets event inside)
    · obtain rfl := List.mem_singleton.1 last
      exact ⟨rfl, rfl⟩

end

end PacketFilter.Log
