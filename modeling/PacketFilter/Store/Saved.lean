import PacketFilter.Store.Basic
import PacketFilter.Text.Lines

/-!
# Saved stores

A store is saved as text: for every slot with rules a header `#TABLE.CHAIN`, then the written form of
each rule on a line of its own. Reading adds the rules of a text to a store, all of them or, if a header
is wrong or the stream fails, none. Main content: `Store.saved`, `Store.write` and `Store.load`.
-/

namespace PacketFilter

/-! ## Writing -/

namespace Store

/-- The lines of a slot: none if it is empty, else its header and its rules. -/
def savedLines (store : Store) (slot : Slot) : List String :=
  match store.rules slot with
  | [] => []
  | rules => ("#" ++ slot.name) :: rules.map Rule.text

/-- The saved form of a store. -/
def saved (store : Store) : String := String.join ((Slot.all.flatMap store.savedLines).map (· ++ "\n"))

end Store

/-- Where a text is written: to a writer, perhaps with a limit, or to a file in a folder that does not exist. -/
inductive Destination where
  | writer (limit? : Option Limit)
  | missingFolder
  deriving DecidableEq, Repr

/-- What was written, and the error that ended the writing. -/
structure Written where
  bytes : List UInt8
  error? : Option StreamError
  deriving DecidableEq, Repr

/-- Writes bytes as far as there is room. -/
def Destination.write (destination : Destination) (bytes : List UInt8) : Written :=
  match destination with
  | writer none => ⟨bytes, none⟩
  | writer (some limit) => ⟨bytes.take limit.room, if bytes.length ≤ limit.room then none else some limit.error⟩
  | missingFolder => ⟨[], some .notFound⟩

/-- Writes the saved form of a store. -/
def Store.write (store : Store) (destination : Destination) : Written :=
  destination.write store.saved.toUTF8.data.toList

/-! ## Headers -/

/-- Why a text cannot be read into a store; lines are counted from one. -/
inductive LoadError where
  | stream (error : StreamError)
  | malformedHeader (line : Nat) (text : String)
  | unknownTable (line : Nat) (name : String)
  | unknownChain (line : Nat) (name : String)
  | chainNotInTable (line : Nat) (table : Table) (chain : Chain)
  deriving DecidableEq, Repr

/-- The error in words. -/
def LoadError.message? : LoadError → Option String
  | stream error => error.message?
  | malformedHeader line text =>
    some ("line " ++ line.repr ++ ": malformed chain header '" ++ text ++ "', expected '#<TABLE>.<CHAIN>'")
  | unknownTable line name => some ("line " ++ line.repr ++ ": unknown table '" ++ name ++ "'")
  | unknownChain line name => some ("line " ++ line.repr ++ ": unknown chain '" ++ name ++ "'")
  | chainNotInTable line table chain =>
    some ("line " ++ line.repr ++ ": chain " ++ chain.name ++ " is not part of table " ++ table.name)

namespace Header

/-- Whether characters are a name: at least one letter, digit or underscore, and nothing else. -/
def isName (cs : List Char) : Bool := !cs.isEmpty && cs.all fun c => c.isAlphanum || c == '_'

/-- The two names of a header. -/
def names? (cs : List Char) : Option (String × String) :=
  match cs with
  | '#' :: rest =>
    match Text.cutAt '.' rest with
    | (table, some chain) =>
      if isName table && isName chain then some (String.ofList table, String.ofList chain) else none
    | (_, none) => none
  | _ => none

/-- The slot of a header. -/
def parse (line : Nat) (text : String) : Except LoadError Slot :=
  match names? text.toList with
  | none => .error (.malformedHeader line text)
  | some (tableName, chainName) =>
    match Table.ofName? tableName with
    | none => .error (.unknownTable line tableName)
    | some table =>
      match Chain.ofName? chainName with
      | none => .error (.unknownChain line chainName)
      | some chain =>
        match Slot.of? table chain with
        | none => .error (.chainNotInTable line table chain)
        | some slot => .ok slot

end Header

/-! ## Reading -/

/-- What a line of a saved store is, without the blank characters at its ends. -/
inductive SavedLine where
  | blank
  | header (text : String)
  | rule (text : String)
  deriving DecidableEq, Repr

/-- Tells the kinds of lines apart: a header starts with `#`. -/
def SavedLine.ofText (line : String) : SavedLine :=
  let text := Text.trim line
  match text.toList with
  | [] => .blank
  | '#' :: _ => .header text
  | _ => .rule text

/-- A rule that was read, with its line and the slot of the header above it. -/
structure Staged where
  line : Nat
  rule : Rule
  header? : Option Slot

/-- The rule of a line under a header, which fixes the rule's table and chain. -/
def Staged.ofText (grammar : Grammar) (header? : Option Slot) (line : Nat) (text : String) : Staged :=
  ⟨line, Rule.new grammar ((header?.map Context.ofSlot).getD .unknown) text, header?⟩

/-- The slot where a rule goes: that of the header above it, or else its own. -/
def Staged.slot? (staged : Staged) : Option Slot := staged.header?.or staged.rule.slot?

/-- The rules of the lines from a number on, below a header. -/
def stage (grammar : Grammar) (header? : Option Slot) (line : Nat) : List String → Except LoadError (List Staged)
  | [] => .ok []
  | text :: texts =>
    match SavedLine.ofText text with
    | .blank => stage grammar header? (line + 1) texts
    | .header header => do
      let slot ← Header.parse line header
      stage grammar (some slot) (line + 1) texts
    | .rule rule => do
      let rest ← stage grammar header? (line + 1) texts
      return .ofText grammar header? line rule :: rest

/-- The rules of a stream. -/
def stageStream (grammar : Grammar) (stream : ByteStream) : Except LoadError (List Staged) := do
  let lines := Lines.ofStream stream
  let staged ← stage grammar none 1 lines.texts
  match lines.error? with
  | some error => .error (.stream error)
  | none => .ok staged

/-- A store after reading: the number of rules added, and the changes. -/
structure Loaded where
  store : Store
  count : Nat
  changes : List Change

/-- Where a saved store is read from: a stream, or a file that does not exist. -/
inductive Origin where
  | stream (stream : ByteStream)
  | missingFile
  deriving DecidableEq, Repr

namespace Store

/-- Adds a rule that was read to its slot, unless it belongs elsewhere. -/
def place? (store : Store) (staged : Staged) : Option Edit := do
  let slot ← staged.slot?
  store.append? staged.rule slot.table slot.chain

/-- Adds the rules that were read; those that belong elsewhere are skipped. -/
def placeAll (store : Store) : List Staged → Loaded
  | [] => ⟨store, 0, []⟩
  | staged :: rest =>
    match store.place? staged with
    | some edit =>
      let loaded := edit.store.placeAll rest
      { loaded with count := loaded.count + 1, changes := edit.changes ++ loaded.changes }
    | none => store.placeAll rest

/-- Adds the rules of a saved store. -/
def load (store : Store) (origin : Origin) : Except LoadError Loaded :=
  match origin with
  | .missingFile => .error (.stream .notFound)
  | .stream stream => (stageStream store.grammar stream).map store.placeAll

end Store

end PacketFilter
