import PacketFilter.Literal
import PacketFilter.Packet

/-!
# Conditions

What a rule can ask of a packet: how a condition is spelled, which values it takes and which packets
satisfy it. Main content: `Condition.test`.
-/

namespace PacketFilter

/-- The two ends of a connection. -/
inductive Side where
  | source
  | destination
  deriving DecidableEq, Repr

/-- The field of the internet header with the address of a side. -/
def Side.addressField : Side → String
  | source => "src"
  | destination => "dst"

/-- The field of a transport header with the port of a side. -/
def Side.portField : Side → String
  | source => "sport"
  | destination => "dport"

/-- Whether a packet comes in or goes out. -/
inductive Direction where
  | inward
  | outward
  deriving DecidableEq, Repr

/-- The field with the interface of a direction. -/
def Direction.field : Direction → String
  | inward => "in_interface"
  | outward => "out_interface"

/-- The spellings of a flag: the one that is written, and others that are read. -/
structure Spelling where
  keyword : String
  aliases : List String
  deriving DecidableEq, Repr

/-- Whether a word spells the flag. -/
def Spelling.accepts (spelling : Spelling) (word : String) : Bool :=
  word == spelling.keyword || spelling.aliases.contains word

/-- The spellings of the flag in front of a protocol. -/
def Protocol.flag : Spelling := ⟨"-p", ["--protocol"]⟩

/-- A test of one property of a packet. -/
inductive Condition where
  | protocol (protocol : Protocol)
  | port (side : Side) (protocol : Protocol)
  | address (side : Side)
  | interface (direction : Direction)
  | state
  deriving DecidableEq, Repr

namespace Condition

/-- The connection states that a rule can name. -/
def states : List String := ["NEW", "ESTABLISHED", "RELATED", "INVALID"]

/-- The spellings of the flag of a condition. -/
def spelling : Condition → Spelling
  | protocol _ => Protocol.flag
  | port .source _ => ⟨"--sport", ["--source-port"]⟩
  | port .destination _ => ⟨"--dport", ["--destination-port"]⟩
  | address .source => ⟨"-s", ["--source"]⟩
  | address .destination => ⟨"-d", ["--destination"]⟩
  | interface .inward => ⟨"-i", ["--in-interface"]⟩
  | interface .outward => ⟨"-o", ["--out-interface"]⟩
  | state => ⟨"--state", []⟩

/-- What a condition asks, in words. -/
def help : Condition → String
  | protocol _ => "Matches packets of the given transport protocol."
  | port .source _ => "Matches the transport source port."
  | port .destination _ => "Matches the transport destination port."
  | address .source => "Matches the source address or network."
  | address .destination => "Matches the destination address or network."
  | interface .inward => "Matches the interface the packet arrived on."
  | interface .outward => "Matches the interface the packet leaves on."
  | state => "Matches the connection-tracking state."

/-- The words that are written for a condition before its value; the name of a protocol is one of them. -/
def keyword (condition : Condition) : List String :=
  match condition with
  | protocol p => [condition.spelling.keyword, p.name]
  | _ => [condition.spelling.keyword]

/-- Whether a word can be the value of the condition. -/
def accepts : Condition → String → Bool
  | protocol p, word => p.isNamed word
  | port _ _, word => (Port.parse word).isOk
  | address _, word => Network.isLiteral word
  | interface _, word => word != ""
  | state, word => states.contains word

/-- Whether the port in a field is the one that a text names. -/
def portIs (field? : Option Value) (text : String) : Bool :=
  match Port.parse text, field?.bind Value.toInt? with
  | .ok wanted, some number => number.toInt == wanted.toNat
  | _, _ => false

/-- Whether the address in a field lies in the network that a text names. -/
def addressIn (field? : Option Value) (text : String) : Bool :=
  match Network.parse text, (field?.bind Value.toText?).bind Address.ofDottedQuad? with
  | .ok network, some host => decide (network.Contains host)
  | _, _ => false

/-- Whether a field holds a text. -/
def textIs (field? : Option Value) (text : String) : Bool := field?.bind Value.toText? == some text

/-- Tests a packet against a value of the condition; a field that the packet lacks never matches. -/
def test (condition : Condition) (packet : Packet) (value : String) : Bool :=
  match condition with
  | protocol p => packet.protocol? == some p
  | port side p => portIs (packet.get? p.layer side.portField) value
  | address side => addressIn (packet.get? "IP" side.addressField) value
  | interface direction => textIs (packet.get? Packet.metaLayer direction.field) value
  | state => textIs (packet.get? Packet.metaLayer "state") value

end Condition

end PacketFilter
