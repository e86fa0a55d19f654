import Mathlib.Data.List.Forall2
import PacketFilter.Proofs.Rule.Evaluation
import PacketFilter.Replay

/-!
# Replays

A replay accounts for every packet: the first rule that decides sends it on or drops it, and a packet that no rule
decides on goes on unchanged. Main statement: `Store.replay_accounts`, which says what the sink receives and what is
reported or, if the sink is full too early, where the replay ends.
-/

namespace PacketFilter

/-! ## One packet -/

/-- The packet that a verdict lets through. -/
def Verdict.packet? : Verdict → Option Packet
  | drop => none
  | forward packet => some packet

/-- A passage is what becomes of a packet among rules. -/
structure IsPassage (rules : List Rule) (packet : Packet) (passage : Passage) : Prop where
  decided : ∀ index, passage.decision? = some index ↔ ∃ verdict, Decides rules packet index verdict
  sent : ∀ index verdict, Decides rules packet index verdict → passage.output? = verdict.packet?
  unchanged : passage.decision? = none → passage.output? = some packet

theorem isPassage_of (rules : List Rule) (packet : Packet) : IsPassage rules packet (Passage.of rules packet) := by
  have decides (index : Nat) (verdict : Verdict) :
      Decides rules packet index verdict ↔ evaluate? rules packet = some (index, verdict) :=
    evaluate?_eq_some_iff.symm
  unfold Passage.of
  cases found : evaluate? rules packet with
  | none =>
    refine ⟨?_, ?_, fun _ => rfl⟩
    · simp [decides, found]
    · simp [decides, found]
  | some decision =>
    obtain ⟨index, verdict⟩ := decision
    cases verdict with
    | drop => exact ⟨by simp [decides, found], by simp [decides, found, Verdict.packet?], by simp⟩
    | forward changed => exact ⟨by simp [decides, found], by simp [decides, found, Verdict.packet?], by simp⟩

/-! ## Packets in a row -/

/-- What becomes of packets. -/
def passages (rules : List Rule) (packets : List Packet) : List Passage := packets.map (Passage.of rules)

/-- The packets that go on. -/
def sent (rules : List Rule) (packets : List Packet) : List Packet := (passages rules packets).filterMap Passage.output?

/-- The report on passages. -/
def Report.ofPassages (passages : List Passage) : Report where
  written := passages.countP fun passage => passage.output?.isSome
  dropped := passages.countP fun passage => passage.output?.isNone
  decisions := passages.map Passage.decision?

/-- The limit that is left after packets were written. -/
def Limit.after (limit : Limit) (written : Nat) : Limit := { limit with room := limit.room - written }

@[simp] theorem passages_cons (rules : List Rule) (packet : Packet) (packets : List Packet) :
    passages rules (packet :: packets) = Passage.of rules packet :: passages rules packets := rfl

theorem sent_cons (rules : List Rule) (packet : Packet) (packets : List Packet) :
    sent rules (packet :: packets) = (Passage.of rules packet).output?.toList ++ sent rules packets := by
  unfold sent
  rw [passages_cons, List.filterMap_cons]
  cases (Passage.of rules packet).output? <;> rfl

theorem Report.ofPassages_cons (passage : Passage) (passages : List Passage) :
    ofPassages (passage :: passages) = (ofPassages passages).cons passage := by
  cases output : passage.output? <;> simp [ofPassages, cons, output]

theorem Report.read_ofPassages (passages : List Passage) :
    (ofPassages passages).read = (ofPassages passages).written + (ofPassages passages).dropped := by
  have either := passages.length_eq_countP_add_countP fun passage => passage.output?.isSome
  simpa [read, ofPassages, ← Option.isNone_iff_eq_none] using either

theorem Report.written_ofPassages (passages : List Passage) :
    (ofPassages passages).written = (passages.filterMap Passage.output?).length :=
  List.length_filterMap_eq_countP.symm

/-- A replay goes on behind a packet unless the packet does not fit into the sink. -/
theorem replay_cons (rules : List Rule) (limit? : Option Limit) (packet : Packet) (packets : List Packet)
    (fits : ∀ limit ∈ limit?, (Passage.of rules packet).output?.toList.length ≤ limit.room) :
    replay rules limit? (packet :: packets) =
      (replay rules (limit?.map fun limit => limit.after (Passage.of rules packet).output?.toList.length) packets).cons
        (Passage.of rules packet) := by
  cases output : (Passage.of rules packet).output? with
  | none => cases limit? <;> simp [replay, output, Limit.after]
  | some changed =>
    rcases limit? with _ | ⟨_ | room, error⟩
    · simp [replay, output]
    · simp [output] at fits
    · simp [replay, output, Limit.after]

theorem replay_of_full {rules : List Rule} {packet : Packet} (goesOn : (Passage.of rules packet).output?.isSome)
    (error : StreamError) (packets : List Packet) :
    replay rules (some ⟨0, error⟩) (packet :: packets) = ⟨[], .error (.stream error)⟩ := by
  obtain ⟨changed, output⟩ := Option.isSome_iff_exists.1 goesOn
  simp [replay, output]

/-- A sink with room for what goes on has room for the first packet, and then for the others. -/
theorem room_cons {rules : List Rule} {limit? : Option Limit} {packet : Packet} {packets : List Packet}
    (room : ∀ limit ∈ limit?, (sent rules (packet :: packets)).length ≤ limit.room) :
    (∀ limit ∈ limit?, (Passage.of rules packet).output?.toList.length ≤ limit.room) ∧
      ∀ limit ∈ limit?.map (fun limit => limit.after (Passage.of rules packet).output?.toList.length),
        (sent rules packets).length ≤ limit.room := by
  rw [sent_cons] at room
  constructor
  · intro limit given
    have whole := room limit given
    rw [List.length_append] at whole
    omega
  · intro limit left
    obtain ⟨given, isGiven, rfl⟩ := Option.map_eq_some_iff.1 left
    have whole := room given isGiven
    rw [List.length_append] at whole
    simp only [Limit.after]
    omega

/-- If the sink has room, it receives all packets that go on. -/
theorem replay_of_room {rules : List Rule} {limit? : Option Limit} {packets : List Packet}
    (room : ∀ limit ∈ limit?, (sent rules packets).length ≤ limit.room) :
    replay rules limit? packets = ⟨sent rules packets, .ok (.ofPassages (passages rules packets))⟩ := by
  induction packets generalizing limit? with
  | nil => rfl
  | cons packet packets ih =>
    obtain ⟨first, others⟩ := room_cons room
    rw [replay_cons rules limit? packet packets first, ih others, sent_cons, passages_cons, Report.ofPassages_cons]
    rfl

/-- If the sink has too little room, it receives what fits, and its error ends the replay. -/
theorem replay_of_overflow {rules : List Rule} {limit : Limit} {packets : List Packet}
    (overflow : limit.room < (sent rules packets).length) :
    replay rules (some limit) packets = ⟨(sent rules packets).take limit.room, .error (.stream limit.error)⟩ := by
  induction packets generalizing limit with
  | nil => simp [sent, passages] at overflow
  | cons packet packets ih =>
    rw [sent_cons, List.length_append] at overflow
    by_cases fits : (Passage.of rules packet).output?.toList.length ≤ limit.room
    · have later : (limit.after (Passage.of rules packet).output?.toList.length).room < (sent rules packets).length := by
        simp only [Limit.after]
        omega
      rw [replay_cons rules (some limit) packet packets (by simpa using fits), Option.map_some, ih later, sent_cons,
        List.take_append, List.take_of_length_le fits]
      rfl
    · -- A single packet fits into all sinks but the full one.
      cases output : (Passage.of rules packet).output? with
      | none => simp [output] at fits
      | some changed =>
        obtain ⟨room, error⟩ := limit
        obtain rfl : room = 0 := by simpa [output] using fits
        rw [replay_of_full (by simp [output]), List.take_zero]

/-! ## Replays in a row -/

/-- The report on the packets of two replays. -/
def Report.append (first second : Report) : Report where
  written := first.written + second.written
  dropped := first.dropped + second.dropped
  decisions := first.decisions ++ second.decisions

/-- A replay with another one behind it, unless an error ends the first. -/
def Replayed.followedBy (first : Replayed) (later : Report → Replayed) : Replayed :=
  match first.result with
  | .error _ => first
  | .ok report => ⟨first.output ++ (later report).output, (later report).result.map report.append⟩

theorem Report.ofPassages_append (front back : List Passage) :
    ofPassages (front ++ back) = (ofPassages front).append (ofPassages back) := by
  simp [ofPassages, append]

theorem sent_append (rules : List Rule) (front back : List Packet) :
    sent rules (front ++ back) = sent rules front ++ sent rules back := by
  simp [sent, passages]

theorem replay_append (rules : List Rule) (limit? : Option Limit) (front back : List Packet) :
    replay rules limit? (front ++ back) =
      (replay rules limit? front).followedBy fun report =>
        replay rules (limit?.map fun limit => limit.after report.written) back := by
  by_cases room : ∀ limit ∈ limit?, (sent rules front).length ≤ limit.room
  · rw [replay_of_room room]
    have written : (Report.ofPassages (passages rules front)).written = (sent rules front).length :=
      Report.written_ofPassages _
    simp only [Replayed.followedBy, written]
    by_cases more : ∀ limit ∈ limit?, (sent rules (front ++ back)).length ≤ limit.room
    · have rest : ∀ limit ∈ limit?.map (fun limit => limit.after (sent rules front).length),
          (sent rules back).length ≤ limit.room := by
        intro limit left
        obtain ⟨given, isGiven, rfl⟩ := Option.map_eq_some_iff.1 left
        have whole := more given isGiven
        rw [sent_append, List.length_append] at whole
        simp only [Limit.after]
        omega
      rw [replay_of_room more, replay_of_room rest, sent_append]
      simp [passages, Except.map, Report.ofPassages_append]
    · obtain ⟨limit, rfl, overflow⟩ : ∃ limit, limit? = some limit ∧ limit.room < (sent rules (front ++ back)).length := by
        simpa using more
      have first : (sent rules front).length ≤ limit.room := room limit rfl
      have rest : (limit.after (sent rules front).length).room < (sent rules back).length := by
        rw [sent_append, List.length_append] at overflow
        simp only [Limit.after]
        omega
      rw [replay_of_overflow overflow, Option.map_some, replay_of_overflow rest, sent_append, List.take_append,
        List.take_of_length_le first]
      rfl
  · obtain ⟨limit, rfl, overflow⟩ : ∃ limit, limit? = some limit ∧ limit.room < (sent rules front).length := by
      simpa using room
    have further : limit.room < (sent rules (front ++ back)).length := by
      rw [sent_append, List.length_append]
      omega
    rw [replay_of_overflow overflow, replay_of_overflow further, sent_append, List.take_append_of_le_length (by omega)]
    rfl

/-! ## The chain of a store -/

theorem Store.replay_packets (store : Store) (table : Table) (chain : Chain) (packets : List Packet)
    (limit? : Option Limit) :
    store.replay table chain (.ok packets) limit? =
      PacketFilter.replay ((store.rules? table chain).getD []) limit? packets := rfl

/-- A replay accounts for every packet. A sink with enough room receives all packets that go on; the report counts
    them and the others, and names the rule that decided on each. A sink with less room receives the first packets
    that go on, and its error is returned. The store is only read: further packets meet the same rules. -/
theorem Store.replay_accounts (store : Store) (table : Table) (chain : Chain) (packets : List Packet)
    (limit? : Option Limit) :
    let replayed := store.replay table chain (.ok packets) limit?
    (∃ passages, List.Forall₂ (IsPassage ((store.rules? table chain).getD [])) packets passages ∧
      let sent := passages.filterMap Passage.output?
      ((∀ limit ∈ limit?, sent.length ≤ limit.room) →
        replayed.output = sent ∧ ∃ report, replayed.result = .ok report ∧ report.read = packets.length ∧
          report.read = report.written + report.dropped ∧ report.written = replayed.output.length ∧
          report.decisions = passages.map Passage.decision?) ∧
      ∀ limit ∈ limit?, limit.room < sent.length →
        replayed.output = sent.take limit.room ∧ replayed.result = .error (.stream limit.error)) ∧
    ∀ later, store.replay table chain (.ok (packets ++ later)) limit? =
      replayed.followedBy fun report =>
        store.replay table chain (.ok later) (limit?.map fun limit => limit.after report.written) := by
  intro replayed
  have same : replayed = PacketFilter.replay ((store.rules? table chain).getD []) limit? packets :=
    store.replay_packets table chain packets limit?
  refine ⟨⟨passages ((store.rules? table chain).getD []) packets, ?_, ?_, ?_⟩, ?_⟩
  · rw [passages, List.forall₂_map_right_iff, List.forall₂_same]
    exact fun packet _ => isPassage_of _ packet
  · intro room
    rw [same, replay_of_room room]
    refine ⟨rfl, _, rfl, ?_, Report.read_ofPassages _, Report.written_ofPassages _, rfl⟩
    simp [Report.read, Report.ofPassages, passages]
  · intro limit given overflow
    obtain rfl : limit? = some limit := given
    rw [same, replay_of_overflow overflow]
    exact ⟨rfl, rfl⟩
  · intro later
    exact replay_append ((store.rules? table chain).getD []) limit? packets later

end PacketFilter
