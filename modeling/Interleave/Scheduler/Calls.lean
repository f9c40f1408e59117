import Interleave.Scheduler.Basic

/-!
# The scheduler's calls

What operations and the runtime ask of a scheduler. `yield`, `nextBoolean` and `nextInteger` are the
suspension points: each is refused once the run is over, to a caller that does not hold control, and
at the step bound; otherwise it takes one decision from the strategy and logs it. The other calls
register operations, change their flags and pass notices on to the strategy while the run goes on.
-/

namespace Interleave.Scheduler

variable {σ : Type} [Strategy σ]

/-- The misuse that a token shows at a suspension point. -/
def misuse? (s : Scheduler σ) (t : Token) : Option Misuse :=
  if t.scheduler ≠ s.id then some (.foreignToken t.operation)
  else match s.slot? t.operation with
    | none => some (.notRegistered t.operation)
    | some slot => match s.scheduled with
      | some active =>
        if active = t.operation then none else some (.notScheduled slot.name t.operation active)
      | none => some (.nothingScheduled slot.name t.operation)

/-- The run cut off at the step bound, which counts as a bug if the configuration says so. -/
def cutOff (s : Scheduler σ) : Scheduler σ :=
  let bound := s.config.stepBound (Strategy.isFair s.strategy)
  let s := { s with boundReached := true }
  if s.config.boundIsBug then
    s.fail .stepBound ("Scheduling steps bound of " ++ Text.showNat bound ++ " reached.")
  else s.stop

/-- The state in which a suspension point is refused, or nothing if it is admitted. -/
def refusal? (s : Scheduler σ) (t : Token) : Option (Scheduler σ) :=
  if !s.running then some s.stop
  else match s.misuse? t with
    | some m => some (s.fail .uncontrolledSynchronization m.message)
    | none => if Strategy.boundReached s.strategy then some s.cutOff else none

/-- The bug of a monitor that overheated during the run. -/
def overheated (monitor : String) : String :=
  "Monitor '" ++ monitor ++ "' detected potential liveness bug in hot state."

/-- The bug of a monitor that is hot at the end of the run. -/
def endedHot (monitor : String) : String :=
  "Monitor '" ++ monitor ++ "' detected liveness bug in hot state at the end of program execution."

/-- The bug of operations that wait for messages while nothing is enabled. -/
def stuckWaiting (names : List String) : String :=
  "Livelock detected. " ++ quoteNames names ++ " " ++ (if names.length = 1 then "is" else "are") ++
    " waiting to receive an event, but no other controlled operations are enabled."

/-- Raise the temperature of every hot monitor by one. Under an unfair strategy or without a
threshold they keep theirs. -/
def heat (s : Scheduler σ) : Scheduler σ :=
  if s.config.livenessThreshold = 0 || !Strategy.isFair s.strategy then s
  else { s with hotMonitors := s.hotMonitors.map fun (m, n) => (m, n + 1) }

/-- The first monitor whose temperature is above the threshold. -/
def overheatedMonitor? (s : Scheduler σ) : Option String :=
  if s.config.livenessThreshold = 0 || !Strategy.isFair s.strategy then none
  else (s.hotMonitors.find? fun (_, n) => s.config.livenessThreshold < n).map (·.1)

/-- End the run after the strategy answered with no operation: a livelock if nothing is enabled and
some operation waits for a message, a liveness bug if nothing is enabled, the strategy is fair and a
monitor is hot, and otherwise no bug. -/
def exhaust (s : Scheduler σ) (choices : List Snapshot) : Scheduler σ :=
  let anyEnabled := choices.any (·.enabled)
  let waiting := (choices.filter (·.waiting)).map (·.name)
  if !anyEnabled && !waiting.isEmpty then s.fail .livelock (stuckWaiting waiting)
  else match s.hotMonitors with
    | (monitor, _) :: _ =>
      if !anyEnabled && Strategy.isFair s.strategy then
        s.fail (.liveness monitor) (endedHot monitor)
      else s.explored
    | [] => s.explored

/-- Give control from the current operation to the next one. An operation that keeps control or has
completed goes on, any other parks. -/
def handOver (s : Scheduler σ) (current next : OperationId) : Reply × Scheduler σ :=
  if next = current then (.proceed, s)
  else
    let finished := (s.slot? current).any (·.completed)
    let s := s.updateSlot current fun slot => { slot with active := false }
    let s := s.updateSlot next fun slot => { slot with active := true }
    (if finished then .proceed else .parked, { s with scheduled := some next })

/-- Log the operation to run next, heat the monitors and give it control. -/
def dispatch (s : Scheduler σ) (current next : OperationId) : Reply × Scheduler σ :=
  let s := { s with schedule := s.schedule.push (.schedule next) }.heat
  match s.overheatedMonitor? with
  | some monitor => (.canceled, s.fail (.liveness monitor) (overheated monitor))
  | none => s.handOver current next

/-- Yield at a scheduling point, declaring the caller's next action. -/
def yield (s : Scheduler σ) (t : Token) (kind : ActionKind) (targetKind : TargetKind)
    (target : OperationId) : Reply × Scheduler σ :=
  match s.refusal? t with
  | some s => (.canceled, s)
  | none =>
    let s := s.updateSlot t.operation (·.declare ⟨kind, targetKind, target, none⟩)
    let choices := s.snapshots
    let (answer, strategy) := Strategy.nextOperation s.strategy choices t.operation
    let s := { s with strategy }
    match answer with
    | .error e => (.canceled, s.abort e)
    | .ok none => (.canceled, s.exhaust choices)
    | .ok (some next) =>
      if choices.any fun op => op.id = next && op.enabled then s.dispatch t.operation next
      else (.canceled, s.abort (.notEnabled next))

/-- Log a decided value and tell the strategy; without one the run ends. Nothing means that the
caller is canceled. -/
def settle {α : Type} (s : Scheduler σ) (t : Token) (toChoice : α → Choice)
    (toDecision : α → Decision) : Answer α → Option α × Scheduler σ
  | .error e => (none, s.abort e)
  | .ok none => (none, s.explored)
  | .ok (some value) =>
    (some value, { s with
      strategy := Strategy.observe s.strategy (.chosen t.operation (toChoice value))
      schedule := s.schedule.push (toDecision value) })

/-- A Boolean for the caller, logged with the identity of a fair choice if one is given. -/
def nextBoolean (s : Scheduler σ) (t : Token) (max : UInt32) (fairness : Option String) :
    Option Bool × Scheduler σ :=
  match s.refusal? t with
  | some s => (none, s)
  | none =>
    let (answer, strategy) := Strategy.nextBoolean s.strategy max
    { s with strategy }.settle t .boolean
      (fun b => match fairness with
        | some uid => .fairBoolean uid b
        | none => .boolean b)
      answer

/-- An answered integer that must be below `max`, or 0 if `max` is 0. -/
def checkRange (max : UInt32) : Answer UInt32 → Answer UInt32
  | .ok (some value) =>
    if isInRange value max then .ok (some value) else .error (.outOfRange value max)
  | answer => answer

/-- An integer below `max` for the caller. -/
def nextInteger (s : Scheduler σ) (t : Token) (max : UInt32) : Option UInt32 × Scheduler σ :=
  match s.refusal? t with
  | some s => (none, s)
  | none =>
    let (answer, strategy) := Strategy.nextInteger s.strategy max
    { s with strategy }.settle t .integer .integer (checkRange max answer)

/-- Register an operation. The first one gets control at once; one registered after the end of the
run is killed. An identity registered twice keeps its first slot. -/
def create (s : Scheduler σ) (id : OperationId) (name : String) : Token × Scheduler σ :=
  let token : Token := ⟨s.id, id⟩
  if (s.slot? id).isSome then (token, s)
  else
    let first := s.slots.isEmpty
    let slot := { Slot.fresh id name with active := first }
    let slot := if s.running then slot else slot.kill
    (token, { s with
      slots := insertSlot slot s.slots
      scheduled := if first then some id else s.scheduled })

/-- The caller's handler has started. -/
def start (s : Scheduler σ) (t : Token) : Reply × Scheduler σ :=
  match s.slot? t.operation, decide (t.scheduler = s.id) with
  | some slot, true =>
    (slot.wake, s.updateSlot t.operation fun slot => { slot with handlerRunning := true })
  | _, _ =>
    (.canceled,
      s.fail .uncontrolledSynchronization (Misuse.startedUnregistered t.operation).message)

/-- The caller is about to wait for a message. -/
def blockOnReceive (s : Scheduler σ) (t : Token) : Scheduler σ :=
  s.updateSlot t.operation Slot.block

/-- A message has arrived for an operation. -/
def unblock (s : Scheduler σ) (id : OperationId) : Scheduler σ :=
  s.updateSlot id Slot.unblock

/-- The caller's handler has finished. -/
def complete (s : Scheduler σ) (t : Token) : Scheduler σ :=
  s.updateSlot t.operation Slot.complete

/-- The hot monitors after a notice. -/
def monitorsAfter (s : Scheduler σ) : Notice → List (String × Nat)
  | .monitored monitor _ true => insertMonitor monitor s.hotMonitors
  | .monitored monitor _ false => s.hotMonitors.filter fun entry => !entry.1 == monitor
  | _ => s.hotMonitors

/-- Pass a notice on to the strategy while the run goes on. -/
def notify (s : Scheduler σ) (n : Notice) : Scheduler σ :=
  if s.running then
    { s with hotMonitors := s.monitorsAfter n, strategy := Strategy.observe s.strategy n }
  else s

/-- Ask the strategy whether a message is delivered. After the end of the run all are. -/
def send (s : Scheduler σ) (sender target : OperationId) (event : Event) : Delivery × Scheduler σ :=
  if s.running then
    let (delivery, strategy) := Strategy.onSend s.strategy sender target event
    (delivery, { s with strategy })
  else (.deliver, s)

/-- Report a failed assertion that ends the run. -/
def failAssertion (s : Scheduler σ) (text : String) : Scheduler σ :=
  s.fail .assertion text

/-- Report a failed assertion and complete the run, but leave the operations alive until their next
scheduling point. -/
def reportAssertion (s : Scheduler σ) (text : String) : Scheduler σ :=
  { s.recordBug ⟨.assertion, text⟩ with running := false, completed := true }

end Interleave.Scheduler
