import PacketFilter.Json.Basic
import PacketFilter.Packet
import PacketFilter.Table

/-!
# Packets and names as JSON

How packets, values and names are written in JSON, and how they are read back. Main content:
`Packet.ofJson?` and `Packet.toJson`.
-/

namespace PacketFilter

namespace Json

/-- The map of an object, by the readings of its members; the last one of a name stays. -/
def dict? {α : Type} (read? : Json → Option α) : Json → Option (Dict α)
  | .object members => do
    let entries ← members.mapM fun (name, value) => do
      let name ← Piece.text? name
      let item ← read? value
      return (name, item)
    return Dict.ofList entries
  | _ => none

/-- The object of a map. -/
def ofDict {α : Type} (write : α → Json) (dict : Dict α) : Json :=
  .object (dict.entries.map fun (name, value) => (Piece.ofText name, write value))

/-- The name of a variant, alone or as the only member of an object with the value `null`. -/
def variant? : Json → Option String
  | .string pieces => Piece.text? pieces
  | .object [(name, .null)] => Piece.text? name
  | _ => none

/-- The JSON of a text. -/
def ofText (text : String) : Json := .string (Piece.ofText text)

end Json

/-- A value is a text, or an integer of 64 bits. -/
def Value.ofJson? : Json → Option Value
  | .integer number => if Int64.minValue.toInt ≤ number ∧ number ≤ Int64.maxValue.toInt then some (.int (.ofInt number)) else none
  | .string pieces => (Json.Piece.text? pieces).map .text
  | _ => none

/-- The JSON of a value. -/
def Value.toJson : Value → Json
  | .int number => .integer number.toInt
  | .text words => .ofText words

namespace Packet

/-- The packet of an object with one member `layers`, whatever else it has, or of an array with the layers as
    its only item. -/
def ofJson? : Json → Option Packet
  | .object members => do
    let named ← members.mapM fun (name, value) => do
      let name ← Json.Piece.text? name
      return (name, value)
    match named.filter fun (name, _) => name == "layers" with
    | [(_, layers)] => (Json.dict? (Json.dict? Value.ofJson?) layers).map (⟨·⟩)
    | _ => none
  | .array [layers] => (Json.dict? (Json.dict? Value.ofJson?) layers).map (⟨·⟩)
  | _ => none

/-- The JSON of a packet: an object with its layers. -/
def toJson (packet : Packet) : Json :=
  .object [(Json.Piece.ofText "layers", Json.ofDict (Json.ofDict Value.toJson) packet.layers)]

/-- Reads the compact text of a packet, or any other text of it. -/
def parse? (text : String) : Option Packet := do ofJson? (← Json.parse? text)

/-- The compact text of a packet. -/
def render (packet : Packet) : String := packet.toJson.render

end Packet

/-! ## Names of variants -/

/-- The name of a table as a variant. -/
def Table.variant : Table → String
  | filter => "Filter"
  | nat => "Nat"

/-- The name of a chain as a variant. -/
def Chain.variant : Chain → String
  | input => "Input"
  | output => "Output"
  | forward => "Forward"
  | prerouting => "Prerouting"
  | postrouting => "Postrouting"

/-- The name of a protocol as a variant. -/
def Protocol.variant : Protocol → String
  | tcp => "Tcp"
  | udp => "Udp"
  | icmp => "Icmp"

/-- The table of a variant. -/
def Table.ofJson? (json : Json) : Option Table := do
  let name ← json.variant?
  Table.all.find? fun table => table.variant == name

/-- The chain of a variant. -/
def Chain.ofJson? (json : Json) : Option Chain := do
  let name ← json.variant?
  Chain.all.find? fun chain => chain.variant == name

/-- The protocol of a variant. -/
def Protocol.ofJson? (json : Json) : Option Protocol := do
  let name ← json.variant?
  Protocol.all.find? fun protocol => protocol.variant == name

end PacketFilter
