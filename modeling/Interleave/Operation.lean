import Interleave.Json.Basic
import Interleave.Text.Numeral

/-!
# Operations

An operation is one controlled unit of concurrency. At a scheduling point the scheduler shows a
strategy a `Snapshot` of every operation: its flags and the action it has declared to take next.
-/

namespace Interleave

/-- The identity of an operation within a run. -/
structure OperationId where
  value : UInt64
  deriving DecidableEq, Inhabited

namespace OperationId

/-- The operation that starts every run. -/
def harness : OperationId := ⟨0⟩

/-- The decimal numeral of an identity. -/
def text (id : OperationId) : String :=
  Text.showNat id.value.toNat

/-- An identity as a JSON number. -/
def toJson (id : OperationId) : Json :=
  .natural id.value.toNat

end OperationId

/-- The kinds of action an operation declares before it yields. -/
inductive ActionKind where
  | start
  | create
  | send
  | receive
  | stop
  | yield
  | join
  deriving DecidableEq

/-- The name of an action kind. -/
def ActionKind.name : ActionKind → String
  | .start => "Start"
  | .create => "Create"
  | .send => "Send"
  | .receive => "Receive"
  | .stop => "Stop"
  | .yield => "Yield"
  | .join => "Join"

/-- The action kind of the given name. -/
def ActionKind.ofName? : String → Option ActionKind
  | "Start" => some .start
  | "Create" => some .create
  | "Send" => some .send
  | "Receive" => some .receive
  | "Stop" => some .stop
  | "Yield" => some .yield
  | "Join" => some .join
  | _ => none

/-- What a declared action is aimed at. -/
inductive TargetKind where
  | operation
  | inbox
  deriving DecidableEq

/-- The name of a target kind. -/
def TargetKind.name : TargetKind → String
  | .operation => "Operation"
  | .inbox => "Inbox"

/-- The target kind of the given name. -/
def TargetKind.ofName? : String → Option TargetKind
  | "Operation" => some .operation
  | "Inbox" => some .inbox
  | _ => none

/-- The action an operation declared at its latest scheduling point. A declared receive may name the
step of the send it will match. -/
structure Declared where
  kind : ActionKind
  targetKind : TargetKind
  target : OperationId
  matchingSend : Option Nat
  deriving DecidableEq

namespace Declared

/-- The declaration of an operation that has not run yet: to start itself. -/
def start (id : OperationId) : Declared :=
  ⟨.start, .operation, id, none⟩

/-- The JSON form of a declaration. -/
def toJson (d : Declared) : Json :=
  .record [
    ("operation_type", .text d.kind.name),
    ("target_type", .text d.targetKind.name),
    ("target_id", d.target.toJson),
    ("matching_send_index", .optional .natural d.matchingSend)]

end Declared

/-- One operation at a scheduling point. -/
structure Snapshot where
  id : OperationId
  name : String
  enabled : Bool
  completed : Bool
  waiting : Bool
  next : Declared
  count : Nat
  deriving DecidableEq

namespace Snapshot

/-- The JSON form of a snapshot. -/
def toJson (s : Snapshot) : Json :=
  .record [
    ("id", s.id.toJson),
    ("name", .text s.name),
    ("is_enabled", .bool s.enabled),
    ("is_completed", .bool s.completed),
    ("is_waiting_to_receive", .bool s.waiting),
    ("next", s.next.toJson),
    ("operation_count", .natural s.count)]

end Snapshot

/-- The identities of the enabled operations, in the given order. -/
def enabledIds (choices : List Snapshot) : List OperationId :=
  (choices.filter (·.enabled)).map (·.id)

end Interleave
