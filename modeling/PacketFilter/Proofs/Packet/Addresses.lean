import Mathlib.Algebra.Group.Nat.Defs
import PacketFilter.Condition
import PacketFilter.Proofs.Packet.Fields
import PacketFilter.Proofs.Text.Literals

/-!
# Addresses in networks

A condition on an address compares the leading bits of the packet's address with those of the network that its value
names. Taken as numbers, two addresses agree in these bits when their quotients by a power of two are the same. Main
statements: `Network.contains_iff` and `Condition.test_address`.
-/

namespace PacketFilter

/-! ## Addresses as numbers -/

/-- The number of an address, whose digits to the base 256 are the octets. -/
def Address.number (address : Address) : Nat :=
  ((address.first.toNat * 256 + address.second.toNat) * 256 + address.third.toNat) * 256 + address.fourth.toNat

theorem Address.toNat_bits (address : Address) : address.bits.toNat = address.number := by
  have append {w : Nat} (front : BitVec w) (last : BitVec 8) : (front ++ last).toNat = front.toNat * 256 + last.toNat := by
    have base : 2 ^ 8 = 256 := rfl
    rw [BitVec.toNat_append, ← Nat.shiftLeft_add_eq_or_of_lt last.isLt, Nat.shiftLeft_eq, base]
  simp only [bits, append, number, UInt8.toNat_toBitVec]

theorem Address.eq_of_number_eq {a b : Address} (same : a.number = b.number) : a = b := by
  obtain ⟨a₁, a₂, a₃, a₄⟩ := a
  obtain ⟨b₁, b₂, b₃, b₄⟩ := b
  have bound (octet : UInt8) : octet.toNat < 256 := octet.toNat_lt
  have := bound a₂; have := bound a₃; have := bound a₄
  have := bound b₂; have := bound b₃; have := bound b₄
  simp only [number] at same
  simp only [mk.injEq, ← UInt8.toNat_inj]
  omega

/-- Two words have the same bits from a position on when their quotients by its power of two are the same. -/
theorem and_allOnes_shiftLeft_eq_iff {w : Nat} (x y : BitVec w) (k : Nat) :
    x &&& BitVec.allOnes w <<< k = y &&& BitVec.allOnes w <<< k ↔ x.toNat / 2 ^ k = y.toNat / 2 ^ k := by
  have quotient (z : BitVec w) : z.toNat / 2 ^ k = (z >>> k).toNat := by
    rw [BitVec.toNat_ushiftRight, Nat.shiftRight_eq_div_pow]
  rw [quotient, quotient, BitVec.toNat_inj]
  constructor
  · intro same
    refine BitVec.eq_of_getLsbD_eq fun i _ => ?_
    have bit := congrArg (fun z => z.getLsbD (k + i)) same
    by_cases inside : k + i < w
    · have high : ¬ k + i < k := by omega
      simpa [inside, high] using bit
    · simp [BitVec.getLsbD_of_ge _ _ (Nat.not_lt.1 inside)]
  · intro same
    refine BitVec.eq_of_getLsbD_eq fun i inside => ?_
    by_cases low : i < k
    · simp [low]
    · have bit := congrArg (fun z => z.getLsbD (i - k)) same
      simp only [BitVec.getLsbD_ushiftRight, Nat.add_sub_cancel' (Nat.not_lt.1 low)] at bit
      simp [bit]

namespace Network

/-- A network contains the addresses with the same quotient by the power of two of the bits that do not count. -/
theorem contains_iff {network : Network} {host : Address} :
    network.Contains host ↔
      host.number / 2 ^ (32 - network.length.val) = network.address.number / 2 ^ (32 - network.length.val) := by
  rw [Contains, mask, and_allOnes_shiftLeft_eq_iff, Address.toNat_bits, Address.toNat_bits]

/-- With fewer bits that count, a network contains no fewer addresses. -/
theorem Contains.widen {address host : Address} {longer shorter : Fin 33} (fewer : shorter ≤ longer)
    (contains : Contains ⟨address, longer⟩ host) : Contains ⟨address, shorter⟩ host := by
  rw [contains_iff] at contains ⊢
  have split : 2 ^ (32 - shorter.val) = 2 ^ (32 - longer.val) * 2 ^ (longer.val - shorter.val) := by
    rw [← Nat.pow_add]
    congr 1
    have := longer.isLt
    have : shorter.val ≤ longer.val := fewer
    omega
  simp only [split, ← Nat.div_div_eq_div_mul]
  rw [contains]

theorem contains_zero (address host : Address) : Contains ⟨address, 0⟩ host := by
  have small (address : Address) : address.number / 2 ^ 32 = 0 := by
    rw [← address.toNat_bits]
    exact Nat.div_eq_of_lt address.bits.isLt
  have none : 32 - (0 : Fin 33).val = 32 := rfl
  rw [contains_iff, none, small, small]

theorem contains_whole_iff {address host : Address} : Contains ⟨address, 32⟩ host ↔ host = address := by
  have all : 32 - (32 : Fin 33).val = 0 := rfl
  rw [contains_iff, all, Nat.pow_zero, Nat.div_one, Nat.div_one]
  constructor
  · exact Address.eq_of_number_eq
  · rintro rfl
    rfl

end Network

/-! ## The condition -/

/-- The field with the address of a side. -/
theorem Packet.getPath?_address (packet : Packet) (side : Side) :
    packet.getPath? ("IP." ++ side.addressField) = packet.get? "IP" side.addressField := by
  have path : path? ("IP." ++ side.addressField) = some ("IP", side.addressField) := @path?_append "IP" (by decide) _
  rw [getPath?, path]
  rfl

namespace Condition

theorem addressIn_eq_true_iff {field? : Option Value} {text : String} :
    addressIn field? text = true ↔
      ∃ network host, Network.parse text = .ok network ∧ field? = some (.text host.text) ∧ network.Contains host := by
  have carries (host : Address) :
      (field?.bind Value.toText?).bind Address.ofDottedQuad? = some host ↔ field? = some (.text host.text) := by
    constructor
    · intro found
      obtain ⟨words, isText, read⟩ := Option.bind_eq_some_iff.1 found
      obtain ⟨value, present, words'⟩ := Option.bind_eq_some_iff.1 isText
      obtain rfl := Address.ofDottedQuad?_eq_some_iff.1 read
      cases value with
      | int number => cases words'
      | text other => rw [present, Option.some.inj words']
    · rintro rfl
      rw [Option.bind_some, Value.toText?, Option.bind_some, Address.ofDottedQuad?_eq_some_iff]
  unfold addressIn
  constructor
  · intro holds
    split at holds
    · rename_i network host named found
      exact ⟨network, host, named, (carries host).1 found, of_decide_eq_true holds⟩
    · cases holds
  · rintro ⟨network, host, named, present, contains⟩
    rw [named, (carries host).2 present]
    exact decide_eq_true contains

theorem test_address_iff {side : Side} {packet : Packet} {value : String} :
    (address side).test packet value = true ↔ ∃ network host, Network.parse value = .ok network ∧
      packet.getPath? ("IP." ++ side.addressField) = some (.text host.text) ∧ network.Contains host := by
  rw [test, addressIn_eq_true_iff, packet.getPath?_address]

/-- A condition on an address holds when its value names a network, the packet carries an address in its written form,
    and the quotients of the two by the power of two of the bits that do not count are the same. So it holds for no
    fewer packets with a shorter prefix, for every packet with an address with the prefix 0, and with a bare address
    for the packets that carry this address. -/
theorem test_address (side : Side) (packet : Packet) :
    let field? := packet.getPath? ("IP." ++ side.addressField)
    (∀ value, (address side).test packet value = true ↔
      ∃ network, ∃ host : Address, Network.parse value = .ok network ∧ field? = some (.text host.text) ∧
        host.number / 2 ^ (32 - network.length.val) = network.address.number / 2 ^ (32 - network.length.val)) ∧
    (∀ ip longer shorter value wider, Network.parse value = .ok ⟨ip, longer⟩ → Network.parse wider = .ok ⟨ip, shorter⟩ →
      shorter ≤ longer → (address side).test packet value = true → (address side).test packet wider = true) ∧
    (∀ ip value, Network.parse value = .ok ⟨ip, 0⟩ →
      ((address side).test packet value = true ↔ ∃ host : Address, field? = some (.text host.text))) ∧
    ∀ ip value, IsAddress value.toList ip →
      ((address side).test packet value = true ↔ field? = some (.text ip.text)) := by
  intro field?
  refine ⟨fun value => ?_, ?_, ?_, ?_⟩
  · simp only [test_address_iff, Network.contains_iff]
    rfl
  · intro ip longer shorter value wider named namedWider fewer holds
    obtain ⟨network, host, named', present, contains⟩ := test_address_iff.1 holds
    obtain rfl : ⟨ip, longer⟩ = network := Except.ok.inj (named.symm.trans named')
    exact test_address_iff.2 ⟨_, host, namedWider, present, contains.widen fewer⟩
  · intro ip value named
    rw [test_address_iff]
    constructor
    · rintro ⟨-, host, -, present, -⟩
      exact ⟨host, present⟩
    · rintro ⟨host, present⟩
      exact ⟨_, host, named, present, Network.contains_zero ip host⟩
  · intro ip value spelled
    have named : Network.parse value = .ok ⟨ip, 32⟩ := (Literal.recognizes_network.accepts _ _).2 (.host spelled)
    rw [test_address_iff]
    constructor
    · rintro ⟨network, host, named', present, contains⟩
      obtain rfl : ⟨ip, 32⟩ = network := Except.ok.inj (named.symm.trans named')
      rwa [Network.contains_whole_iff.1 contains] at present
    · intro present
      exact ⟨_, ip, named, present, Network.contains_whole_iff.2 rfl⟩

end Condition

end PacketFilter
