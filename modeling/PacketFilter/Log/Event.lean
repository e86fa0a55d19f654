import PacketFilter.Store.Saved
import PacketFilter.Replay

/-!
# Events

What is worth noting while rules are matched, stored and run, with the severity and the wording of each
kind of event.
-/

namespace PacketFilter.Log

/-- The severity of an event, the most severe one first. -/
inductive Level where
  | warn
  | info
  | debug
  | trace
  deriving DecidableEq, Repr

namespace Level

/-- The place of a level, counted from the most severe one. -/
def rank : Level → Nat
  | warn => 0
  | info => 1
  | debug => 2
  | trace => 3

/-- The name of a level, as an event is written. -/
def name : Level → String
  | warn => "WARN"
  | info => "INFO"
  | debug => "DEBUG"
  | trace => "TRACE"

end Level

/-- Something that happened. -/
inductive Event where
  | targetNotApplied (error : LiteralError)
  | ruleSkipped (line : Nat) (rule : String)
  | chainReplayed (table : Table) (chain : Chain) (rules : Nat) (report : Report)
  | storeLoaded (count : Nat)
  | captureRead (count : Nat)
  | presetDropped (table : Table) (chain : Chain)
  | partialMatch (raw : String) (recovered leftover : Nat)
  | appendRejected (table : Table) (chain : Chain) (rule : String)
  | insertRejected (table : Table) (chain : Chain) (index : Nat)
  | overwriteRejected (table : Table) (chain : Chain) (index : Nat)
  | storeChanged (change : Change)
  | conditionFailed (condition : String)
  deriving DecidableEq, Repr

namespace Event

/-- The severity of an event. -/
def level : Event → Level
  | targetNotApplied .. | ruleSkipped .. => .warn
  | chainReplayed .. => .info
  | conditionFailed .. => .trace
  | _ => .debug

/-- The name of a change. -/
def kindName : ChangeKind → String
  | .appended => "Appended"
  | .inserted => "Inserted"
  | .deleted => "Deleted"

/-- A table, a chain and an index in words. -/
def place (table : Table) (chain : Chain) (index : Nat) : String :=
  "table=" ++ table.name ++ " chain=" ++ chain.name ++ " index=" ++ index.repr

/-- What happened, in words. -/
def message : Event → String
  | targetNotApplied error => "NAT target not applied err=" ++ error.message
  | ruleSkipped line rule => "rule skipped while loading line=" ++ line.repr ++ " rule=" ++ rule
  | chainReplayed table chain rules report =>
    "chain replayed table=" ++ table.name ++ " chain=" ++ chain.name ++ " rules=" ++ rules.repr ++
      " report=" ++ report.display
  | storeLoaded count => "rule store loaded loaded=" ++ count.repr
  | captureRead count => "read capture count=" ++ count.repr
  | presetDropped table chain => "preset chain not in table table=" ++ table.name ++ " chain=" ++ chain.name
  | partialMatch raw recovered leftover =>
    "partial match raw=" ++ raw ++ " recovered=" ++ recovered.repr ++ " leftover=" ++ leftover.repr
  | appendRejected table chain rule =>
    "append rejected table=" ++ table.name ++ " chain=" ++ chain.name ++ " rule=" ++ rule
  | insertRejected table chain index => "insert rejected " ++ place table chain index
  | overwriteRejected table chain index => "overwrite rejected " ++ place table chain index
  | storeChanged change =>
    "store changed kind=" ++ kindName change.kind ++ " " ++ place change.slot.table change.slot.chain change.index
  | conditionFailed condition => "condition failed descriptor=" ++ condition

/-- An event as one line. -/
def text (event : Event) : String := event.level.name ++ " " ++ event.message

end Event

/-- The lines of the events that are at least as severe as a level. -/
def lines (level : Level) (events : List Event) : List String :=
  (events.filter fun event => event.level.rank ≤ level.rank).map Event.text

end PacketFilter.Log
