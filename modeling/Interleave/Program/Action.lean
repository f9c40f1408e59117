import Interleave.Event

/-!
# Programs

A program is what its operations do, given as a deterministic transition system: a body is a state
of some type `β`, and `Program.act` says what an operation with that body does next. All that an
operation does to the world around it is one of the constructors of `Action`; the bodies it goes on
with stand inside, as functions of the answer where there is one.
-/

namespace Interleave

/-- A value that a program computes with. -/
inductive Value where
  | number (value : UInt64)
  | flag (value : Bool)
  | text (value : String)
  deriving DecidableEq, Inhabited

/-- The JSON form of a value. -/
def Value.toJson : Value → Json
  | .number n => .natural n.toNat
  | .flag b => .bool b
  | .text s => .text s

/-- A message in an inbox. -/
structure Message where
  id : MessageId
  sender : OperationId
  name : String
  value : UInt64
  deriving DecidableEq

namespace Message

/-- What the scheduler is told of a message: its name, its identity and the digest of its value. -/
def event (m : Message) : Event :=
  { name := m.name, message := some m.id : Event }.withPayload (.word m.value)

end Message

/-- What an operation does next, and the body it goes on with. -/
inductive Action (β : Type) where
  /-- The body is at its end. -/
  | finish
  /-- Create an operation with a name and a body; its identity is the answer. -/
  | create (name : String) (child : β) (next : OperationId → β)
  /-- Send a message to the inbox of an operation, which need not exist. -/
  | send (target : OperationId) (name : String) (value : UInt64) (next : β)
  /-- Take the next message from the own inbox, and wait for one if it is empty. -/
  | receive (next : Message → β)
  /-- Ask for a Boolean, which is a fair choice if it has an identity. -/
  | boolean (fairness : Option String) (next : Bool → β)
  /-- Ask for an integer below `max`. -/
  | integer (max : UInt32) (next : UInt32 → β)
  /-- Fail, which ends the run. -/
  | fail (message : String)
  /-- Report a failure and go on to the next scheduling point. -/
  | report (message : String) (next : β)
  /-- Report that a monitor has become hot or cold. -/
  | monitor (name : String) (hot : Bool) (next : β)
  /-- Write a value to the log of the run. -/
  | log (value : Value) (next : β)
  /-- Do nothing that can be seen from outside. -/
  | quiet (next : β)

/-- A program with bodies of type `β`. -/
structure Program (β : Type) where
  /-- What the operation of the given identity does next. -/
  act : OperationId → β → Action β
  /-- The body of the harness, the operation that starts every run. -/
  main : β

end Interleave
