import PacketFilter.Store.Basic
import PacketFilter.Capture

/-!
# Replaying packets

Packets are run through a chain one after the other. The first rule that decides on a packet drops it or
sends it on; a packet that no rule decides on goes on as it is. Main content: `replay`, whose report
accounts for every packet.
-/

namespace PacketFilter

/-- The outcome of a replay: how many packets were written and dropped, and the index of the rule that
    decided on each packet, if one did. -/
structure Report where
  written : Nat
  dropped : Nat
  decisions : List (Option Nat)
  deriving DecidableEq, Repr

namespace Report

/-- The report on no packets. -/
def empty : Report := ⟨0, 0, []⟩

/-- The number of packets read. -/
def read (report : Report) : Nat := report.decisions.length

/-- The number of packets that no rule decided on. -/
def undecided (report : Report) : Nat := report.decisions.countP Option.isNone

/-- The report in words. -/
def display (report : Report) : String :=
  "read: " ++ report.read.repr ++ ", written: " ++ report.written.repr ++ ", dropped: " ++ report.dropped.repr ++
    ", default accept: " ++ report.undecided.repr

end Report

/-- What becomes of a packet: the index of the rule that decided, and the packet that goes on. -/
structure Passage where
  decision? : Option Nat
  output? : Option Packet
  deriving DecidableEq

/-- Sends a packet through rules. -/
def Passage.of (rules : List Rule) (packet : Packet) : Passage :=
  match evaluate? rules packet with
  | some (index, .drop) => ⟨some index, none⟩
  | some (index, .forward changed) => ⟨some index, some changed⟩
  | none => ⟨none, some packet⟩

/-- The packets that a sink received, and the report or the error that ended the replay. -/
structure Replayed where
  output : List Packet
  result : Except CaptureError Report

/-- Adds one packet's passage in front of a report. -/
def Report.cons (passage : Passage) (report : Report) : Report where
  written := report.written + if passage.output?.isSome then 1 else 0
  dropped := report.dropped + if passage.output?.isSome then 0 else 1
  decisions := passage.decision? :: report.decisions

/-- Adds one packet's passage in front of a replay. -/
def Replayed.cons (passage : Passage) (later : Replayed) : Replayed :=
  ⟨passage.output?.toList ++ later.output, later.result.map (Report.cons passage)⟩

/-- Sends packets through rules into a sink, perhaps with a limit. -/
def replay (rules : List Rule) (limit? : Option Limit) : List Packet → Replayed
  | [] => ⟨[], .ok .empty⟩
  | packet :: packets =>
    let passage := Passage.of rules packet
    match passage.output?, limit? with
    | some _, some ⟨0, error⟩ => ⟨[], .error (.stream error)⟩
    | some _, some ⟨room + 1, error⟩ => (replay rules (some ⟨room, error⟩) packets).cons passage
    | _, _ => (replay rules limit? packets).cons passage

namespace Store

/-- Replays the packets of a source through a chain; a chain that the table does not hold has no rules. -/
def replay (store : Store) (table : Table) (chain : Chain) (source : Except CaptureError (List Packet))
    (limit? : Option Limit) : Replayed :=
  match source with
  | .error error => ⟨[], .error error⟩
  | .ok packets => PacketFilter.replay ((store.rules? table chain).getD []) limit? packets

/-- Replays the packets of a capture through a chain into a new capture. -/
def replayCapture (store : Store) (table : Table) (chain : Chain) (input : Capture) :
    Except CaptureError Report × Capture :=
  let replayed := store.replay table chain input.read none
  (replayed.result, Capture.created.appendAll replayed.output)

end Store

end PacketFilter
