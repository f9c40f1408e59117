import Interleave.Event
import Interleave.Schedule

/-!
# Bugs, strategy errors and outcomes

How a run can end: with a `Bug`, with a `StrategyError` that is fatal to the session, or neither.
The wording of every message is given here, from its cause.
-/

namespace Interleave

/-- The kinds of bug. -/
inductive BugKind where
  | assertion
  | livelock
  | uncontrolledSynchronization
  | stepBound
  | liveness (monitor : String)
  deriving DecidableEq

namespace BugKind

/-- The name of a bug kind. -/
def name : BugKind → String
  | .assertion => "Assertion"
  | .livelock => "Livelock"
  | .uncontrolledSynchronization => "UncontrolledSynchronization"
  | .stepBound => "StepBound"
  | .liveness _ => "Liveness"

/-- Whether the bug is a monitor that stayed hot. -/
def isLiveness : BugKind → Bool
  | .liveness _ => true
  | _ => false

/-- The bug kind of the given name, with the monitor that a liveness bug has. -/
def ofName? (name : String) (monitor : Option String) : Option BugKind :=
  match name with
  | "Assertion" => some .assertion
  | "Livelock" => some .livelock
  | "UncontrolledSynchronization" => some .uncontrolledSynchronization
  | "StepBound" => some .stepBound
  | "Liveness" => monitor.map .liveness
  | _ => none

/-- The JSON form of a bug kind, tagged with its name. -/
def toJson : BugKind → Json
  | .liveness monitor => .record [("type", .text "Liveness"), ("monitor", .text monitor)]
  | kind => .record [("type", .text kind.name)]

end BugKind

/-- A bug and the message shown for it. -/
structure Bug where
  kind : BugKind
  message : String
  deriving DecidableEq

/-- The JSON form of a bug. -/
def Bug.toJson (b : Bug) : Json :=
  .record [("kind", b.kind.toJson), ("message", .text b.message)]

/-- How a run departed from the schedule it was to follow. -/
inductive Mismatch where
  | expectedScheduling (found : Decision)
  | expectedBoolean (found : Decision)
  | expectedInteger (found : Decision)
  | notEnabled (operation : OperationId)
  | unknownOperation (operation : OperationId)
  | forcedOperation (operation : OperationId) (found : Decision)
  | forcedBoolean (value : Bool) (found : Decision)
  | forcedInteger (value : UInt32) (found : Decision)
  deriving DecidableEq

/-- The wording of a mismatch. -/
def Mismatch.message : Mismatch → String
  | .expectedScheduling d => "expected a scheduling choice, trace has '" ++ d.text ++ "'"
  | .expectedBoolean d => "expected a boolean choice, trace has '" ++ d.text ++ "'"
  | .expectedInteger d => "expected an integer choice, trace has '" ++ d.text ++ "'"
  | .notEnabled id => "expected operation " ++ id.text ++ " is not enabled"
  | .unknownOperation id => "expected operation " ++ id.text ++ " does not exist"
  | .forcedOperation id d => "forced operation " ++ id.text ++ " but trace has '" ++ d.text ++ "'"
  | .forcedBoolean b d =>
    "forced boolean " ++ Decision.showBool b ++ " but trace has '" ++ d.text ++ "'"
  | .forcedInteger n d =>
    "forced integer " ++ Text.showNat n.toNat ++ " but trace has '" ++ d.text ++ "'"

/-- What a minimization session replayed in vain. -/
inductive ReplayedInput where
  | schedule
  | eventTree
  deriving DecidableEq

/-- The wording of a replay that did not find the bug. -/
def ReplayedInput.message : ReplayedInput → String
  | .schedule => "replaying the schedule trace did not find the bug"
  | .eventTree => "replaying the event tree did not find the bug"

/-- The errors of a strategy. Each ends the session. -/
inductive StrategyError where
  | mismatch (step : Nat) (cause : Mismatch)
  | exhausted (length : Nat)
  | outOfRange (value max : UInt32)
  | notEnabled (operation : OperationId)
  | unsupported (request : String)
  | notReproducible (input : ReplayedInput)
  | other (text : String)
  deriving DecidableEq

/-- Whether an integer may answer a request for one below `max`. Where `max` is 0, the integer 0
may. -/
def isInRange (value max : UInt32) : Bool :=
  value < max || (max = 0 && value = 0)

/-- The wording of a strategy error. -/
def StrategyError.message : StrategyError → String
  | .mismatch step cause =>
    "Trace is not reproducible at step " ++ Text.showNat step ++ ": " ++ cause.message
  | .exhausted length =>
    "Trace is not reproducible: execution is longer than the " ++ Text.showNat length ++
      "-step trace"
  | .outOfRange value max =>
    "Choice " ++ Text.showNat value.toNat ++ " is out of range for max value " ++
      Text.showNat max.toNat
  | .notEnabled id => "Strategy chose operation " ++ id.text ++ ", which is not enabled"
  | .unsupported request => request ++ " is not supported by this strategy"
  | .notReproducible input => "Cannot reproduce bug: " ++ input.message
  | .other text => text

/-- How one run ended. -/
structure Outcome where
  /-- The first bug found. -/
  bug : Option Bug := none
  /-- The strategy ran out of choices without a bug. -/
  fullyExplored : Bool := false
  /-- The run was cut off by the step bound. -/
  boundReached : Bool := false
  /-- Steps the strategy scheduled. -/
  steps : Nat := 0
  /-- The decisions, in order. -/
  schedule : Schedule := #[]
  /-- The strategy error that stopped the run. -/
  error : Option StrategyError := none
  deriving DecidableEq, Inhabited

end Interleave
