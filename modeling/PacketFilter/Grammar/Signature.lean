import PacketFilter.Grammar.Component

/-!
# Signatures and grammars

A signature lists the components of one form of a rule; a grammar lists the signatures that are tried
in turn. Main content: `Signature.walk`, which matches components from left to right, `Grammar.build`,
which checks a grammar, and `Grammar.stock`, the usual one.
-/

namespace PacketFilter

namespace Grammar

/-- Whether a component lists flags. -/
def Component.isFlags : Component → Bool
  | .flags _ => true
  | _ => false

/-- One form of a rule: its components, of which at most one lists flags. -/
structure Signature where
  components : List Component
  nonempty : components ≠ []
  flags_le_one : components.countP Component.isFlags ≤ 1

/-- How far tokens match a list of components. -/
structure Walk where
  /-- The number of components that matched. -/
  covered : Nat
  elements : List Element
  rest : List Token
  context : Context

/-- Matches components from left to right up to the first one that does not fit. -/
def walk : List Component → Context → List Token → Walk
  | [], context, tokens => ⟨0, [], tokens, context⟩
  | component :: components, context, tokens =>
    match component.fit? context tokens with
    | none => ⟨0, [], tokens, context⟩
    | some found =>
      let next := walk components found.context found.rest
      { next with covered := next.covered + 1, elements := found.elements ++ next.elements }

namespace Signature

/-- Matches the components of the signature. -/
def walk (signature : Signature) (context : Context) (tokens : List Token) : Walk :=
  Grammar.walk signature.components context tokens

/-- A walk is complete when every component matched and no token is left. -/
def IsComplete (signature : Signature) (walk : Walk) : Prop :=
  walk.covered = signature.components.length ∧ walk.rest = []

instance (signature : Signature) (walk : Walk) : Decidable (signature.IsComplete walk) :=
  inferInstanceAs (Decidable (_ ∧ _))

/-- The forms that can follow a walk: those of the last component that matched, which can take more flags,
    and of the two after it. -/
def suggestions (signature : Signature) (walk : Walk) : List String :=
  let reached := (signature.components.drop (walk.covered - 1)).take (walk.covered - (walk.covered - 1) + 2)
  Text.sortedSet (reached.flatMap fun component => (component.proposals? (parts walk.elements) walk.context).getD [])

end Signature

end Grammar

/-- The forms that a rule can have, in the order in which they are tried; there is at least one. -/
structure Grammar where
  first : Grammar.Signature
  others : List Grammar.Signature

namespace Grammar

/-- The signatures of a grammar. -/
def signatures (grammar : Grammar) : List Signature := grammar.first :: grammar.others

/-! ## Building a grammar -/

/-- Why a list of forms is not a grammar; signatures are counted from zero. -/
inductive BuildError where
  | noSignatures
  | emptySignature (index : Nat)
  | multipleSpecifications (index count : Nat)
  deriving DecidableEq, Repr

/-- The error in words. -/
def BuildError.message : BuildError → String
  | noSignatures => "no signatures defined; at least one signature is required"
  | emptySignature index => "signature " ++ index.repr ++ " has no components"
  | multipleSpecifications index count =>
    "signature " ++ index.repr ++ " has " ++ count.repr ++ " rule specifications; at most one is allowed"

/-- Checks the components of the signature at an index. -/
def buildSignature (index : Nat) (components : List Component) : Except BuildError Signature :=
  if nonempty : components = [] then .error (.emptySignature index)
  else if single : components.countP Component.isFlags ≤ 1 then .ok ⟨components, nonempty, single⟩
  else .error (.multipleSpecifications index (components.countP Component.isFlags))

/-- Checks the signatures from an index on. -/
def buildSignatures (index : Nat) : List (List Component) → Except BuildError (List Signature)
  | [] => .ok []
  | components :: rest => do
    let signature ← buildSignature index components
    return signature :: (← buildSignatures (index + 1) rest)

/-- Checks the forms of a grammar; the first fault is reported. -/
def build (forms : List (List Component)) : Except BuildError Grammar := do
  match ← buildSignatures 0 forms with
  | [] => .error .noSignatures
  | first :: others => .ok ⟨first, others⟩

/-! ## The stock grammar -/

/-- The components in front of the flags of a rule. -/
def header : List Component := [.start "iptables", .table Table.all, .command, .chain]

/-- The flags of the stock grammar. -/
def stockFlags : List Flag :=
  [.ofProtocol .tcp, .ofProtocol .udp, .address .source, .address .destination, .interface .inward,
    .interface .outward, .state, .jump]

/-- The usual grammar: a header with flags, or a header alone. -/
def stock : Grammar where
  first := ⟨header ++ [.flags stockFlags], by simp [header], by decide⟩
  others := [⟨header, by simp [header], by decide⟩]

end Grammar

end PacketFilter
