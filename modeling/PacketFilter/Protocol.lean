import PacketFilter.Text.Letters

/-!
# Transport protocols

The protocols whose headers a packet can carry, with the name of the layer that holds the header.
-/

namespace PacketFilter

/-- A transport protocol. -/
inductive Protocol where
  | tcp
  | udp
  | icmp
  deriving DecidableEq, Repr

namespace Protocol

/-- Every protocol, in the order in which the layers of a packet are searched. -/
def all : List Protocol := [tcp, udp, icmp]

/-- The name of a protocol, as a rule writes it. -/
def name : Protocol → String
  | tcp => "tcp"
  | udp => "udp"
  | icmp => "icmp"

/-- Whether a text is the protocol's name in any letter case. -/
def isNamed (protocol : Protocol) (name : String) : Bool := Text.equalIgnoringCase protocol.name name

/-- The protocol of a name in any letter case. -/
def ofName? (name : String) : Option Protocol := all.find? fun protocol => protocol.isNamed name

/-- The layer that holds the protocol's header. -/
def layer : Protocol → String
  | tcp => "TCP"
  | udp => "UDP"
  | icmp => "ICMP"

/-- The protocol's number in the internet header. -/
def number : Protocol → Int64
  | tcp => 6
  | udp => 17
  | icmp => 1

/-- Whether the header has a source port and a destination port. -/
def hasPorts : Protocol → Bool
  | tcp | udp => true
  | icmp => false

/-- The header fields of a packet for which none are given. -/
def defaultFields : Protocol → List (String × Int64)
  | tcp => [("sport", 20), ("dport", 80), ("seq", 0), ("ack", 0), ("flags", 2), ("window", 8192)]
  | udp => [("sport", 53), ("dport", 53)]
  | icmp => [("type", 8), ("code", 0)]

end Protocol

end PacketFilter
