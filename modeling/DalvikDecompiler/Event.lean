import DalvikDecompiler.Text

/-!
# Events

**Input.** What happens during decompilation that a user may want to know but
that does not stop it.

Events are kept in the order in which they are recorded.
-/

namespace DalvikDecompiler

/-- What an event is about. -/
inductive EventKind where
  | unknownOpcode | multipleExits | noExit | irreducibleFlow | structuringBound | methodFailed
  deriving DecidableEq, Repr

namespace EventKind

/-- All kinds, in the order of summaries. -/
def all : List EventKind :=
  [.unknownOpcode, .multipleExits, .noExit, .irreducibleFlow, .structuringBound, .methodFailed]

/-- The name of a kind. -/
def name : EventKind → String
  | .unknownOpcode => "unknown-opcode"
  | .multipleExits => "multiple-exits"
  | .noExit => "no-exit"
  | .irreducibleFlow => "irreducible-flow"
  | .structuringBound => "structuring-bound"
  | .methodFailed => "method-failed"

/-- The kind with a name. -/
def ofName? (name : String) : Option EventKind :=
  all.find? fun kind => kind.name == name

end EventKind

/-- An event, with the method and the offset it is about where there are any. -/
structure Event where
  kind : EventKind
  message : String
  method : Option String
  offset : Option UInt32
  deriving DecidableEq, Repr

/-- The text of an event. -/
def Event.text (e : Event) : String :=
  "[" ++ e.kind.name ++ "]" ++
    (match e.method with
      | some method => " " ++ method
      | none => "") ++
    (match e.offset with
      | some offset => " @" ++ Text.hex offset.toNat
      | none => "") ++
    ": " ++ e.message

/-- Events in the order in which they were recorded. -/
abbrev EventLog := List Event

namespace EventLog

/-- Record an event. -/
def record (log : EventLog) (e : Event) : EventLog :=
  log ++ [e]

/-- The events of a kind. -/
def ofKind (log : EventLog) (kind : EventKind) : EventLog :=
  log.filter fun e => e.kind == kind

/-- The events about a method. -/
def about (log : EventLog) (method : String) : EventLog :=
  log.filter fun e => e.method == some method

/-- The kinds that occur, with the number of events of each. -/
def summary (log : EventLog) : List (EventKind × Nat) :=
  (EventKind.all.map fun kind => (kind, (log.ofKind kind).length)).filter fun entry =>
    entry.2 != 0

end EventLog

end DalvikDecompiler
