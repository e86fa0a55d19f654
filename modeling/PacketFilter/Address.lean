/-!
# Addresses

IPv4 addresses, the networks that hold them and the targets that a packet is redirected to. Main
content: `Network.Contains`, which compares two addresses under the mask of a prefix length.
-/

namespace PacketFilter

/-- An IPv4 address, by its four octets from the most significant one. -/
structure Address where
  first : UInt8
  second : UInt8
  third : UInt8
  fourth : UInt8
  deriving DecidableEq, Repr

namespace Address

/-- The address as one word of 32 bits. -/
def bits (address : Address) : BitVec 32 :=
  address.first.toBitVec ++ address.second.toBitVec ++ address.third.toBitVec ++ address.fourth.toBitVec

/-- The four octets in decimal, separated by dots. -/
def text (address : Address) : String :=
  ".".intercalate ([address.first, address.second, address.third, address.fourth].map fun octet => octet.toNat.repr)

end Address

/-- An address together with the number of leading bits that count. -/
structure Network where
  address : Address
  length : Fin 33
  deriving DecidableEq, Repr

namespace Network

/-- The word whose leading `length` bits are set. -/
def mask (length : Fin 33) : BitVec 32 := BitVec.allOnes 32 <<< (32 - length.val)

/-- An address lies in a network when the two agree on the bits of the mask. -/
def Contains (network : Network) (address : Address) : Prop :=
  address.bits &&& mask network.length = network.address.bits &&& mask network.length

instance (network : Network) (address : Address) : Decidable (network.Contains address) :=
  inferInstanceAs (Decidable (_ = _))

end Network

/-- The address that a packet is redirected to, with a port if one is given. -/
structure Target where
  address : Address
  port? : Option UInt16
  deriving DecidableEq, Repr

/-- The address, followed by a colon and the port if there is one. -/
def Target.text (target : Target) : String :=
  match target.port? with
  | some port => target.address.text ++ ":" ++ port.toNat.repr
  | none => target.address.text

end PacketFilter
