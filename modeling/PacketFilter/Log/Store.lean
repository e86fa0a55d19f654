import PacketFilter.Log.Rule

/-!
# Events of a store

The events of editing, loading and replaying a store, and of reading a capture, in the order in which they
occur.
-/

namespace PacketFilter.Log

/-! ## Edits -/

/-- The changes of an edit are noted; a rejection is noted when the rule does not belong to its place. -/
def edit (edit? : Option Edit) (belongs : Prop) [Decidable belongs] (rejection : Event) : List Event :=
  match edit? with
  | some edit => edit.changes.map .storeChanged
  | none => if belongs then [] else [rejection]

/-- The events of `Store.append?`. -/
def append (store : Store) (rule : Rule) (table : Table) (chain : Chain) : List Event :=
  edit (store.append? rule table chain) (rule.Belongs table chain) (.appendRejected table chain rule.text)

/-- The events of `Store.insert?`. -/
def insert (store : Store) (rule : Rule) (table : Table) (chain : Chain) (index : Nat) : List Event :=
  edit (store.insert? rule table chain index) (rule.Belongs table chain) (.insertRejected table chain index)

/-- The events of `Store.overwrite?`. -/
def overwrite (store : Store) (rule : Rule) (table : Table) (chain : Chain) (index : Nat) : List Event :=
  edit (store.overwrite? rule table chain index) (rule.Belongs table chain) (.overwriteRejected table chain index)

/-- The events of `Store.createRule`. -/
def createRule (store : Store) (raw : String) (table : Table) (chain : Chain) : List Event :=
  newRule store.grammar ⟨some table, some chain⟩ raw

/-- The events of `Store.update?`. -/
def update (store : Store) (raw : String) (table : Table) (chain : Chain) (index : Nat) : List Event :=
  createRule store raw table chain ++ overwrite store (store.createRule raw table chain) table chain index

/-- The events of `Store.delete?`. -/
def delete (store : Store) (table : Table) (chain : Chain) (index : Nat) : List Event :=
  ((store.delete? table chain index).map fun edit => edit.changes.map .storeChanged).getD []

/-- The events of `Store.flush`. -/
def flush (store : Store) (table : Table) (chain : Chain) : List Event :=
  (store.flush table chain).changes.map .storeChanged

/-! ## Loading -/

/-- The events of `stage`. -/
def stage (grammar : Grammar) (header? : Option Slot) (line : Nat) : List String → List Event
  | [] => []
  | text :: texts =>
    match SavedLine.ofText text with
    | .blank => stage grammar header? (line + 1) texts
    | .header header =>
      match Header.parse line header with
      | .ok slot => stage grammar (some slot) (line + 1) texts
      | .error _ => []
    | .rule rule =>
      newRule grammar ((header?.map Context.ofSlot).getD .unknown) rule ++ stage grammar header? (line + 1) texts

/-- The events of `Store.place?`. -/
def place (store : Store) (staged : Staged) : List Event :=
  (match staged.slot? with
    | some slot => append store staged.rule slot.table slot.chain
    | none => []) ++
  if (store.place? staged).isSome then [] else [.ruleSkipped staged.line staged.rule.text]

/-- The events of `Store.placeAll`. -/
def placeAll (store : Store) : List Staged → List Event
  | [] => []
  | staged :: rest =>
    place store staged ++ placeAll (((store.place? staged).map fun edit => edit.store).getD store) rest

/-- The events of `Store.load`. -/
def load (store : Store) (origin : Origin) : List Event :=
  match origin with
  | .missingFile => []
  | .stream stream =>
    stage store.grammar none 1 (Lines.ofStream stream).texts ++
      match stageStream store.grammar stream with
      | .ok staged => placeAll store staged ++ [.storeLoaded (store.placeAll staged).count]
      | .error _ => []

/-! ## Replaying -/

/-- The events of `replay`, up to the packet that the sink refuses. -/
def replayPackets (rules : List Rule) (limit? : Option Limit) : List Packet → List Event
  | [] => []
  | packet :: packets =>
    evaluate packet rules ++
      match (Passage.of rules packet).output?, limit? with
      | some _, some ⟨0, _⟩ => []
      | some _, some ⟨room + 1, error⟩ => replayPackets rules (some ⟨room, error⟩) packets
      | _, _ => replayPackets rules limit? packets

/-- The events of `Store.replay`. -/
def replay (store : Store) (table : Table) (chain : Chain) (source : Except CaptureError (List Packet))
    (limit? : Option Limit) : List Event :=
  let rules := (store.rules? table chain).getD []
  (match source with
    | .ok packets => replayPackets rules limit? packets
    | .error _ => []) ++
  match (store.replay table chain source limit?).result with
  | .ok report => [.chainReplayed table chain rules.length report]
  | .error _ => []

/-- The events of `Capture.read`. -/
def readCapture (capture : Capture) : List Event :=
  match capture.read with
  | .ok packets => [.captureRead packets.length]
  | .error _ => []

/-- The events of `Store.replayCapture`. -/
def replayCapture (store : Store) (table : Table) (chain : Chain) (input : Capture) : List Event :=
  readCapture input ++ replay store table chain input.read none

end PacketFilter.Log
