import Interleave.Configuration
import Interleave.Strategy.Basic

/-!
# The scheduler's state

A scheduler serializes one run of a concurrent program. Every registered operation has a `Slot`; at
any moment at most one of them holds control and the others are parked until theirs is activated. A
`Token` is handed out at registration and presented at every suspension point. A stop kills all
slots: it activates and disables them, so that every parked operation wakes up and cancels.
-/

namespace Interleave

/-- The flags of one registered operation. -/
structure Slot where
  id : OperationId
  name : String
  active : Bool
  enabled : Bool
  handlerRunning : Bool
  completed : Bool
  waiting : Bool
  next : Declared
  count : Nat
  deriving DecidableEq

/-- Proof of registration with the scheduler of the given identity. -/
structure Token where
  scheduler : Nat
  operation : OperationId
  deriving DecidableEq

/-- What a suspension point returns: control, the cancellation of the run, or nothing until the slot
is activated. -/
inductive Reply where
  | proceed
  | canceled
  | parked
  deriving DecidableEq

namespace Slot

/-- The slot of a new operation. -/
def fresh (id : OperationId) (name : String) : Slot where
  id := id
  name := name
  active := false
  enabled := true
  handlerRunning := false
  completed := false
  waiting := false
  next := .start id
  count := 0

/-- What a strategy sees of a slot. -/
def snapshot (s : Slot) : Snapshot :=
  ⟨s.id, s.name, s.enabled, s.completed, s.waiting, s.next, s.count⟩

/-- The slot after a scheduling point. -/
def declare (s : Slot) (next : Declared) : Slot :=
  { s with next, count := s.count + 1 }

/-- Activated and disabled, so that the owner wakes up and cancels. -/
def kill (s : Slot) : Slot :=
  { s with active := true, enabled := false }

/-- The owner waits for a message. -/
def block (s : Slot) : Slot :=
  { s with enabled := false, waiting := true }

/-- A message has arrived; this matters only to a waiting owner. -/
def unblock (s : Slot) : Slot :=
  if s.waiting then { s with waiting := false, enabled := true } else s

/-- The owner has finished. -/
def complete (s : Slot) : Slot :=
  { s with enabled := false, completed := true, handlerRunning := false }

/-- What an owner that waits for its slot gets from it now. -/
def wake (s : Slot) : Reply :=
  if s.active then (if s.enabled then .proceed else .canceled) else .parked

/-- Whether the creator of the owner need not wait for its handler any more. -/
def handlerReady (s : Slot) : Bool :=
  s.handlerRunning || (s.active && !s.enabled)

end Slot

/-- A use of the scheduler that it does not control. -/
inductive Misuse where
  | foreignToken (operation : OperationId)
  | notScheduled (name : String) (operation active : OperationId)
  | nothingScheduled (name : String) (operation : OperationId)
  | notRegistered (operation : OperationId)
  | startedUnregistered (operation : OperationId)
  deriving DecidableEq

/-- The wording of a misuse. -/
def Misuse.message (m : Misuse) : String :=
  "Detected uncontrolled synchronization: " ++
    match m with
    | .foreignToken id =>
      "operation " ++ id.text ++ " presented a token issued by another scheduler"
    | .notScheduled name id active =>
      "operation '" ++ name ++ "' (" ++ id.text ++
        ") reached a scheduling point while operation " ++ active.text ++ " is active"
    | .nothingScheduled name id =>
      "operation '" ++ name ++ "' (" ++ id.text ++
        ") reached a scheduling point with nothing scheduled"
    | .notRegistered id => "operation " ++ id.text ++ " is not controlled by the scheduler"
    | .startedUnregistered id => "operation " ++ id.text ++ " started without being registered"

/-- The state of a run under a strategy of states `σ`. -/
structure Scheduler (σ : Type) where
  id : Nat
  config : Configuration
  strategy : σ
  /-- The registered operations, ascending by identity. -/
  slots : List Slot
  /-- The operation that holds control. -/
  scheduled : Option OperationId
  running : Bool
  completed : Bool
  bug : Option Bug
  fullyExplored : Bool
  boundReached : Bool
  error : Option StrategyError
  schedule : Schedule
  /-- Hot monitors, ascending by name, with the scheduling decisions they have stayed hot for. -/
  hotMonitors : List (String × Nat)

/-- A slot put in its place among slots that ascend by identity. -/
def insertSlot (slot : Slot) : List Slot → List Slot
  | [] => [slot]
  | s :: rest =>
    if slot.id.value < s.id.value then slot :: s :: rest else s :: insertSlot slot rest

/-- A hot monitor put in its place among monitors that ascend by name, unless it is hot already. -/
def insertMonitor (name : String) : List (String × Nat) → List (String × Nat)
  | [] => [(name, 0)]
  | (m, n) :: rest =>
    if name < m then (name, 0) :: (m, n) :: rest
    else if name = m then (m, n) :: rest
    else (m, n) :: insertMonitor name rest

/-- Names in quotes, joined by commas and, before the last, by `and`. -/
def quoteNames : List String → String
  | [] => ""
  | [a] => "'" ++ a ++ "'"
  | [a, b] => "'" ++ a ++ "' and '" ++ b ++ "'"
  | a :: rest => "'" ++ a ++ "', " ++ quoteNames rest

namespace Scheduler

variable {σ : Type}

/-- The scheduler of a new run. -/
def new (id : Nat) (config : Configuration) (strategy : σ) : Scheduler σ where
  id := id
  config := config
  strategy := strategy
  slots := []
  scheduled := none
  running := true
  completed := false
  bug := none
  fullyExplored := false
  boundReached := false
  error := none
  schedule := #[]
  hotMonitors := []

/-- The slot of an operation. -/
def slot? (s : Scheduler σ) (id : OperationId) : Option Slot :=
  s.slots.find? (·.id = id)

/-- What a strategy sees of the operations, ascending by identity. -/
def snapshots (s : Scheduler σ) : List Snapshot :=
  s.slots.map Slot.snapshot

/-- Change the slot of an operation, if it has one. -/
def updateSlot (s : Scheduler σ) (id : OperationId) (f : Slot → Slot) : Scheduler σ :=
  { s with slots := s.slots.map fun slot => if slot.id = id then f slot else slot }

/-- End the run: wake and disable every operation. -/
def stop (s : Scheduler σ) : Scheduler σ :=
  { s with running := false, completed := true, slots := s.slots.map Slot.kill }

/-- Record a bug; the first one stays. -/
def recordBug (s : Scheduler σ) (bug : Bug) : Scheduler σ :=
  { s with bug := s.bug.or (some bug) }

/-- Record a bug and end the run. -/
def fail (s : Scheduler σ) (kind : BugKind) (message : String) : Scheduler σ :=
  (s.recordBug ⟨kind, message⟩).stop

/-- Record a strategy error, the first one stays, and end the run. -/
def abort (s : Scheduler σ) (error : StrategyError) : Scheduler σ :=
  { s with error := s.error.or (some error) }.stop

/-- End the run because the strategy has no more choices. -/
def explored (s : Scheduler σ) : Scheduler σ :=
  { s with fullyExplored := true }.stop

/-- How the run ended. -/
def outcome [Strategy σ] (s : Scheduler σ) : Outcome where
  bug := s.bug
  fullyExplored := s.fullyExplored
  boundReached := s.boundReached
  steps := Strategy.steps s.strategy
  schedule := s.schedule
  error := s.error

end Scheduler

end Interleave
