import PacketFilter.Dict
import PacketFilter.Protocol
import PacketFilter.Text.Number

/-!
# Packets

A packet is a map of named layers, each a map of named fields. A field is addressed by a path
`LAYER.field`, in which the first dot ends the name of the layer. Main statements: `get?_set_self` and
`get?_set_of_ne`.
-/

namespace PacketFilter

/-- The value of a header field: a number of 64 bits or a text. -/
inductive Value where
  | int (number : Int64)
  | text (words : String)
  deriving DecidableEq

namespace Value

/-- The value as a number; a text counts when it is a decimal number with an optional sign. -/
def toInt? : Value → Option Int64
  | int number => some number
  | text words => Text.integer? words.toList

/-- The text of a textual value. -/
def toText? : Value → Option String
  | int _ => none
  | text words => some words

/-- The value in words. -/
def display : Value → String
  | int number => number.toInt.repr
  | text words => words

end Value

/-- The fields of one layer. -/
abbrev Layer := Dict Value

/-- A packet, by its layers. -/
structure Packet where
  layers : Dict Layer
  deriving DecidableEq

namespace Packet

/-- The packet without layers. -/
def empty : Packet := ⟨.empty⟩

/-- The field of a layer. -/
def get? (packet : Packet) (layer field : String) : Option Value := do (← packet.layers.get? layer).get? field

/-- Sets the field of a layer, which is made if it is absent. -/
def set (packet : Packet) (layer field : String) (value : Value) : Packet :=
  ⟨packet.layers.insert layer (((packet.layers.get? layer).getD .empty).insert field value)⟩

/-- The layer and the field that a path names; none without a dot. -/
def path? (path : String) : Option (String × String) :=
  match Text.cutAt '.' path.toList with
  | (_, none) => none
  | (layer, some field) => some (String.ofList layer, String.ofList field)

/-- The field at a path. -/
def getPath? (packet : Packet) (path : String) : Option Value := do
  let (layer, field) ← path? path
  packet.get? layer field

/-- Sets the field at a path; a path without a dot changes nothing. -/
def setPath (packet : Packet) (path : String) (value : Value) : Packet :=
  match path? path with
  | some (layer, field) => packet.set layer field value
  | none => packet

/-- The first protocol whose layer the packet has. -/
def protocol? (packet : Packet) : Option Protocol :=
  Protocol.all.find? fun protocol => packet.layers.contains protocol.layer

/-- A packet of a protocol; the given fields of its three layers take the place of the defaults. -/
def create (protocol : Protocol) (link internet transport : List (String × Value)) : Packet :=
  ⟨Dict.ofList [
    ("Ether", (Dict.ofList [("type", .int 0x0800)]).insertAll link),
    ("IP", (Dict.ofList [("version", .int 4), ("ttl", .int 64), ("proto", .int protocol.number)]).insertAll internet),
    (protocol.layer,
      (Dict.ofList (protocol.defaultFields.map fun (field, number) => (field, .int number))).insertAll transport)]⟩

/-- The layer for facts about a packet that are not part of its headers. -/
def metaLayer : String := "META"

@[simp] theorem get?_set_self (packet : Packet) (layer field : String) (value : Value) :
    (packet.set layer field value).get? layer field = some value := by
  simp [get?, set]

theorem get?_set_of_ne (packet : Packet) {layer field layer' field' : String} (value : Value)
    (h : (layer', field') ≠ (layer, field)) :
    (packet.set layer field value).get? layer' field' = packet.get? layer' field' := by
  by_cases same : layer' = layer
  · subst same
    have other : field' ≠ field := fun e => h (by rw [e])
    cases found : packet.layers.get? layer' with
    | none => simp [get?, set, found, Dict.get?_insert_of_ne _ other]
    | some fields => simp [get?, set, found, Dict.get?_insert_of_ne _ other]
  · simp [get?, set, Dict.get?_insert_of_ne _ same]

end Packet

end PacketFilter
