import PacketFilter.Action
import PacketFilter.Proofs.Packet.Addresses

/-!
# Rewritten addresses

What an action makes of a packet whose source or destination it changes: the address of that side, its port where the
target and the packet's protocol have one, and nothing else. What is written is read again by the conditions on that
side. Main statements: `Condition.addressIn_text`, `IsRedirected`, what a redirection has to do, and `Action.apply_nat`.
-/

namespace PacketFilter

/-! ## Written values -/

namespace Condition

theorem addressIn_text (address : Address) (text : String) :
    addressIn (some (.text address.text)) text = true ↔
      ∃ network, Network.parse text = .ok network ∧ network.Contains address := by
  rw [addressIn_eq_true_iff]
  constructor
  · rintro ⟨network, host, named, present, contains⟩
    obtain rfl : address = host := Address.text_inj.1 (Value.text.inj (Option.some.inj present))
    exact ⟨network, named, contains⟩
  · rintro ⟨network, named, contains⟩
    exact ⟨network, address, named, rfl, contains⟩

theorem portIs_int (number : UInt16) (text : String) :
    portIs (some (.int (.ofInt number.toNat))) text = true ↔ Port.parse text = .ok number := by
  have small : (Int64.ofInt number.toNat).toInt = number.toNat := by
    have bound := number.toNat_lt
    exact Int64.toInt_ofInt_of_le (by omega) (by omega)
  cases named : Port.parse text with
  | error fault => simp [portIs, named]
  | ok wanted =>
    simp only [portIs, named, Option.bind_some, Value.toInt?, small, beq_iff_eq, Except.ok.injEq]
    constructor
    · intro same
      exact (UInt16.toNat_inj.1 (Int.ofNat_inj.1 same)).symm
    · rintro rfl
      rfl

end Condition

/-! ## Redirections -/

/-- A redirection sets a port: the target has one, and the packet is of a protocol with ports. -/
def Target.SetsPort (target : Target) (packet : Packet) (p : Protocol) (number : UInt16) : Prop :=
  target.port? = some number ∧ packet.protocol? = some p ∧ p.hasPorts = true

/-- What a redirection of a side to a target makes of a packet. -/
structure IsRedirected (side : Side) (target : Target) (packet changed : Packet) : Prop where
  /-- The address of the side is that of the target, -/
  address : changed.getPath? ("IP." ++ side.addressField) = some (.text target.address.text)
  /-- and so is the port of the side where one is set. -/
  port : ∀ p number, target.SetsPort packet p number →
    changed.getPath? (p.layer ++ "." ++ side.portField) = some (.int (.ofInt number.toNat))
  /-- All other fields of all layers are as they were, -/
  frame : ∀ layer field, (layer, field) ≠ ("IP", side.addressField) →
    (∀ p number, target.SetsPort packet p number → (layer, field) ≠ (p.layer, side.portField)) →
    changed.get? layer field = packet.get? layer field
  /-- and no layer is new, except for that of the address. -/
  layers : ∀ layer ≠ "IP", changed.layers.contains layer = packet.layers.contains layer
  protocol : changed.protocol? = packet.protocol?
  /-- Conditions on the side find the address of the target -/
  addressTest : ∀ text, (Condition.address side).test changed text = true ↔
    ∃ network, Network.parse text = .ok network ∧ network.Contains target.address
  /-- and the port that is set. -/
  portTest : ∀ p number, target.SetsPort packet p number →
    ∀ text, (Condition.port side p).test changed text = true ↔ Port.parse text = .ok number

/-- What comes of a packet that goes on to a second action. -/
def Verdict.andThen (verdict : Verdict) (next : Packet → Verdict) : Verdict :=
  match verdict with
  | drop => drop
  | forward packet => next packet

namespace Protocol

theorem layer_ne (p : Protocol) : p.layer ≠ "IP" := by
  cases p <;> decide

theorem dot_notMem_layer (p : Protocol) : '.' ∉ p.layer.toList := by
  cases p <;> decide

theorem field_ne (p : Protocol) (field field' : String) : ("IP", field) ≠ (p.layer, field') :=
  fun same => p.layer_ne (congrArg Prod.fst same).symm

end Protocol

namespace Side

theorem addressField_ne {side other : Side} (differ : other ≠ side) : other.addressField ≠ side.addressField := by
  revert differ
  cases side <;> cases other <;> decide

theorem portField_ne {side other : Side} (differ : other ≠ side) : other.portField ≠ side.portField := by
  revert differ
  cases side <;> cases other <;> decide

end Side

namespace Action

/-! ## The two settings of a redirection -/

/-- The setting of an address. -/
def setAddress (side : Side) (target : Target) (packet : Packet) : Packet :=
  packet.set "IP" side.addressField (.text target.address.text)

/-- The setting of the port of a protocol, if the protocol has ports and the target has one. -/
def setPort (side : Side) (target : Target) (protocol? : Option Protocol) (packet : Packet) : Packet :=
  match target.port?, protocol? with
  | some number, some p =>
    if p.hasPorts then packet.set p.layer side.portField (.int (.ofInt number.toNat)) else packet
  | _, _ => packet

theorem redirect_eq (side : Side) (target : Target) (packet : Packet) :
    redirect side target packet = setPort side target packet.protocol? (setAddress side target packet) := rfl

theorem setPort_cases (side : Side) (target : Target) (protocol? : Option Protocol) :
    (∃ p number, target.port? = some number ∧ protocol? = some p ∧ p.hasPorts = true ∧
      ∀ packet, setPort side target protocol? packet = packet.set p.layer side.portField (.int (.ofInt number.toNat))) ∨
    (∀ p number, ¬ (target.port? = some number ∧ protocol? = some p ∧ p.hasPorts = true)) ∧
      ∀ packet, setPort side target protocol? packet = packet := by
  cases hasNumber : target.port? with
  | none => exact .inr ⟨by simp, fun packet => by simp [setPort, hasNumber]⟩
  | some number =>
    cases protocol? with
    | none => exact .inr ⟨by simp, fun packet => by simp [setPort, hasNumber]⟩
    | some p =>
      by_cases hasPorts : p.hasPorts = true
      · exact .inl ⟨p, number, rfl, rfl, hasPorts, fun packet => by simp [setPort, hasNumber, hasPorts]⟩
      · exact .inr ⟨by simp [hasPorts], fun packet => by simp [setPort, hasNumber, hasPorts]⟩

theorem setAddress_setAddress (side : Side) (target : Target) (packet : Packet) :
    setAddress side target (setAddress side target packet) = setAddress side target packet :=
  packet.set_set _ _ _ _

theorem setAddress_comm {side other : Side} (differ : other ≠ side) (target target' : Target) (packet : Packet) :
    setAddress other target' (setAddress side target packet) = setAddress side target (setAddress other target' packet) :=
  packet.set_comm (fun same => Side.addressField_ne differ (congrArg Prod.snd same).symm) _ _

theorem setAddress_setPort (side other : Side) (target target' : Target) (protocol? : Option Protocol) (packet : Packet) :
    setAddress other target' (setPort side target protocol? packet) =
      setPort side target protocol? (setAddress other target' packet) := by
  obtain ⟨p, number, -, -, -, own⟩ | ⟨-, own⟩ := setPort_cases side target protocol?
  · rw [own, own]
    exact packet.set_comm (p.field_ne _ _).symm _ _
  · rw [own, own]

theorem setPort_setPort (side : Side) (target : Target) (protocol? : Option Protocol) (packet : Packet) :
    setPort side target protocol? (setPort side target protocol? packet) = setPort side target protocol? packet := by
  obtain ⟨p, number, -, -, -, own⟩ | ⟨-, own⟩ := setPort_cases side target protocol?
  · rw [own, own]
    exact packet.set_set _ _ _ _
  · rw [own, own]

theorem setPort_comm {side other : Side} (differ : other ≠ side) (target target' : Target)
    (protocol? protocol'? : Option Protocol) (packet : Packet) :
    setPort other target' protocol'? (setPort side target protocol? packet) =
      setPort side target protocol? (setPort other target' protocol'? packet) := by
  obtain ⟨p, number, -, -, -, own⟩ | ⟨-, own⟩ := setPort_cases side target protocol?
  · obtain ⟨p', number', -, -, -, others⟩ | ⟨-, others⟩ := setPort_cases other target' protocol'?
    · rw [own, own, others, others]
      exact packet.set_comm (fun same => Side.portField_ne differ (congrArg Prod.snd same).symm) _ _
    · rw [others, others]
  · rw [own, own]

/-! ## The whole redirection -/

theorem contains_redirect (side : Side) (target : Target) (packet : Packet) {layer : String} (other : layer ≠ "IP") :
    (redirect side target packet).layers.contains layer = packet.layers.contains layer := by
  have addressed : (setAddress side target packet).layers.contains layer = packet.layers.contains layer := by
    rw [setAddress, Packet.contains_set, beq_false_of_ne other, Bool.false_or]
  rw [redirect_eq, ← addressed]
  obtain ⟨p, number, -, own, -, sets⟩ | ⟨-, keeps⟩ := setPort_cases side target packet.protocol?
  · rw [sets, Packet.contains_set]
    by_cases same : layer = p.layer
    · -- The layer of the packet's protocol was there before.
      rw [addressed, same, Packet.contains_of_protocol? own, Bool.or_true]
    · rw [beq_false_of_ne same, Bool.false_or]
  · rw [keeps]

theorem protocol?_redirect (side : Side) (target : Target) (packet : Packet) :
    (redirect side target packet).protocol? = packet.protocol? :=
  Packet.protocol?_congr fun p => contains_redirect side target packet p.layer_ne

/-- Redirecting twice is redirecting once. -/
theorem redirect_redirect (side : Side) (target : Target) (packet : Packet) :
    redirect side target (redirect side target packet) = redirect side target packet := by
  calc redirect side target (redirect side target packet)
      = setPort side target packet.protocol? (setAddress side target
          (setPort side target packet.protocol? (setAddress side target packet))) := by
        rw [redirect_eq side target (redirect side target packet), protocol?_redirect, redirect_eq]
    _ = redirect side target packet := by
        rw [setAddress_setPort, setPort_setPort, setAddress_setAddress, redirect_eq]

/-- Redirections of the two sides may be exchanged. -/
theorem redirect_comm {side other : Side} (differ : other ≠ side) (target target' : Target) (packet : Packet) :
    redirect other target' (redirect side target packet) = redirect side target (redirect other target' packet) := by
  have spread (side other : Side) (target target' : Target) :
      redirect other target' (redirect side target packet) =
        setPort other target' packet.protocol? (setPort side target packet.protocol?
          (setAddress other target' (setAddress side target packet))) := by
    rw [redirect_eq other, protocol?_redirect, redirect_eq side, setAddress_setPort]
  rw [spread side other, spread other side, setPort_comm differ, setAddress_comm differ]

theorem get?_redirect_address (side : Side) (target : Target) (packet : Packet) :
    (redirect side target packet).get? "IP" side.addressField = some (.text target.address.text) := by
  rw [redirect_eq]
  obtain ⟨p, number, -, -, -, sets⟩ | ⟨-, keeps⟩ := setPort_cases side target packet.protocol?
  · rw [sets, Packet.get?_set_of_ne _ _ (p.field_ne _ _)]
    exact Packet.get?_set_self _ _ _ _
  · rw [keeps]
    exact Packet.get?_set_self _ _ _ _

theorem get?_redirect_port (side : Side) {target : Target} {packet : Packet} {p : Protocol} {number : UInt16}
    (setsPort : target.SetsPort packet p number) :
    (redirect side target packet).get? p.layer side.portField = some (.int (.ofInt number.toNat)) := by
  rw [redirect_eq]
  obtain ⟨p', number', given, own, -, sets⟩ | ⟨nothing, -⟩ := setPort_cases side target packet.protocol?
  · obtain rfl : p' = p := Option.some.inj (own.symm.trans setsPort.2.1)
    obtain rfl : number' = number := Option.some.inj (given.symm.trans setsPort.1)
    rw [sets]
    exact Packet.get?_set_self _ _ _ _
  · exact absurd setsPort (nothing p number)

theorem get?_redirect_of_ne {side : Side} {target : Target} {packet : Packet} {layer field : String}
    (notAddress : (layer, field) ≠ ("IP", side.addressField))
    (notPort : ∀ p number, target.SetsPort packet p number → (layer, field) ≠ (p.layer, side.portField)) :
    (redirect side target packet).get? layer field = packet.get? layer field := by
  rw [redirect_eq]
  obtain ⟨p, number, given, own, hasPorts, sets⟩ | ⟨-, keeps⟩ := setPort_cases side target packet.protocol?
  · rw [sets, Packet.get?_set_of_ne _ _ (notPort p number ⟨given, own, hasPorts⟩)]
    exact Packet.get?_set_of_ne _ _ notAddress
  · rw [keeps]
    exact Packet.get?_set_of_ne _ _ notAddress

theorem isRedirected_redirect (side : Side) (target : Target) (packet : Packet) :
    IsRedirected side target packet (redirect side target packet) := by
  have hasAddress := get?_redirect_address side target packet
  refine ⟨?_, fun p number setsPort => ?_, fun layer field => get?_redirect_of_ne,
    fun layer other => contains_redirect side target packet other, protocol?_redirect side target packet,
    fun text => ?_, fun p number setsPort text => ?_⟩
  · rw [Packet.getPath?_address]
    exact hasAddress
  · rw [Packet.getPath?, Packet.path?_append p.dot_notMem_layer]
    exact get?_redirect_port side setsPort
  · rw [Condition.test, hasAddress]
    exact Condition.addressIn_text target.address text
  · rw [Condition.test, get?_redirect_port side setsPort]
    exact Condition.portIs_int number text

/-! ## The action -/

theorem apply_nat_of_ok {side : Side} {value : String} {target : Target} (parsed : Target.parse value = .ok target)
    (packet : Packet) : (nat side).apply packet value = .forward (redirect side target packet) := by
  rw [apply, parsed]

theorem apply_nat_of_error {side : Side} {value : String} {fault : LiteralError} (unread : Target.parse value = .error fault)
    (packet : Packet) : (nat side).apply packet value = .forward packet := by
  rw [apply, unread]

/-- An action that changes an address forwards every packet: unchanged if its target cannot be read, and otherwise with
    the address of its side, and the port where one is set, as the only changes. Twice it does the same as once, and the
    actions of the two sides may be exchanged, whatever their targets are. -/
theorem apply_nat (side : Side) (value : String) (packet : Packet) :
    ∃ changed, (nat side).apply packet value = .forward changed ∧
      (∀ fault, Target.parse value = .error fault → changed = packet) ∧
      (∀ target, Target.parse value = .ok target → IsRedirected side target packet changed) ∧
      ((nat side).apply packet value).andThen (fun packet => (nat side).apply packet value) = .forward changed ∧
      ∀ other, other ≠ side → ∀ value',
        ((nat side).apply packet value).andThen (fun packet => (nat other).apply packet value') =
          ((nat other).apply packet value').andThen fun packet => (nat side).apply packet value := by
  cases parsed : Target.parse value with
  | error fault =>
    refine ⟨packet, apply_nat_of_error parsed packet, fun _ _ => rfl, by simp, ?_, fun other differ value' => ?_⟩
    · rw [apply_nat_of_error parsed, Verdict.andThen, apply_nat_of_error parsed]
    · have idle (verdict : Verdict) : verdict.andThen (fun packet => (nat side).apply packet value) = verdict := by
        cases verdict with
        | drop => rfl
        | forward packet => exact apply_nat_of_error parsed packet
      rw [idle, apply_nat_of_error parsed, Verdict.andThen]
  | ok target =>
    refine ⟨redirect side target packet, apply_nat_of_ok parsed packet, by simp, ?_, ?_, fun other differ value' => ?_⟩
    · rintro _ ⟨⟩
      exact isRedirected_redirect side target packet
    · rw [apply_nat_of_ok parsed, Verdict.andThen, apply_nat_of_ok parsed, redirect_redirect]
    · cases parsed' : Target.parse value' with
      | error fault =>
        rw [apply_nat_of_error parsed', Verdict.andThen, apply_nat_of_ok parsed, Verdict.andThen, apply_nat_of_error parsed']
      | ok target' =>
        rw [apply_nat_of_ok parsed', Verdict.andThen, apply_nat_of_ok parsed, Verdict.andThen, apply_nat_of_ok parsed,
          apply_nat_of_ok parsed', redirect_comm differ]

end Action

end PacketFilter
