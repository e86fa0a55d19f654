import PacketFilter.Address
import PacketFilter.Text.Letters
import PacketFilter.Text.Number

/-!
# Literals

The values that follow the flags of a rule: networks, targets and port numbers. A number is a run of
ASCII digits with any leading zeros; `Address.ofDottedQuad?`, which reads the address of a packet,
allows none.
-/

namespace PacketFilter

/-- The forms that a literal can be expected to have. -/
inductive LiteralForm where
  | network
  | target
  | port
  deriving DecidableEq, Repr

/-- What a form looks like, in words. -/
def LiteralForm.description : LiteralForm → String
  | network => "an IPv4 address or CIDR network"
  | target => "an IPv4 address with an optional :port"
  | port => "a port number in 0..=65535"

/-- A text that does not have the expected form. -/
structure LiteralError where
  literal : String
  expected : LiteralForm
  deriving DecidableEq, Repr

/-- The error in words. -/
def LiteralError.message (error : LiteralError) : String :=
  "invalid literal '" ++ error.literal ++ "': expected " ++ error.expected.description

namespace Literal

open Text (number?)

/-- An address whose four parts are read by `octet?`. -/
def quad? (octet? : List Char → Option Nat) (cs : List Char) : Option Address :=
  match cs.splitOn '.' with
  | [a, b, c, d] => do
    return ⟨.ofNat (← octet? a), .ofNat (← octet? b), .ofNat (← octet? c), .ofNat (← octet? d)⟩
  | _ => none

/-- Four numbers up to 255, separated by dots. -/
def address? (cs : List Char) : Option Address := quad? (number? 255) cs

/-- A number up to 255 of at most three digits that does not start with a needless zero. -/
def strictOctet? (digits : List Char) : Option Nat :=
  if digits.length ≤ 3 && (digits.length ≤ 1 || digits.head? != some '0') then number? 255 digits else none

/-- A number up to 65535. -/
def port? (cs : List Char) : Option UInt16 := (number? 65535 cs).map UInt16.ofNat

/-- A prefix length: a number up to 32. -/
def length? (cs : List Char) : Option (Fin 33) := (number? 32 cs).map (Fin.ofNat 33)

/-- An address with an optional prefix length after a slash; without one all bits count. -/
def network? (cs : List Char) : Option Network :=
  match Text.cutAt '/' cs with
  | (front, none) => (address? front).map (⟨·, 32⟩)
  | (front, some back) => do return ⟨← address? front, ← length? back⟩

/-- An address with an optional port after a colon. -/
def target? (cs : List Char) : Option Target :=
  match Text.cutAt ':' cs with
  | (front, none) => (address? front).map (⟨·, none⟩)
  | (front, some back) => do return ⟨← address? front, some (← port? back)⟩

end Literal

/-- An address written as four plain numbers separated by dots. -/
def Address.ofDottedQuad? (text : String) : Option Address := Literal.quad? Literal.strictOctet? text.toList

/-- Reads a network. -/
def Network.parse (text : String) : Except LiteralError Network :=
  match Literal.network? text.toList with
  | some network => .ok network
  | none => .error ⟨text, .network⟩

/-- Reads a target. -/
def Target.parse (text : String) : Except LiteralError Target :=
  match Literal.target? text.toList with
  | some target => .ok target
  | none => .error ⟨text, .target⟩

/-- Reads a port number. -/
def Port.parse (text : String) : Except LiteralError UInt16 :=
  match Literal.port? text.toList with
  | some port => .ok port
  | none => .error ⟨text, .port⟩

/-- Whether a text is a network. -/
def Network.isLiteral (text : String) : Bool := (Network.parse text).isOk

/-- Whether a text is a target. -/
def Target.isLiteral (text : String) : Bool := (Target.parse text).isOk

end PacketFilter
