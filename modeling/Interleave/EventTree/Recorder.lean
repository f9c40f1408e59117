import Interleave.EventTree.Basic
import Interleave.Outcome

/-!
# Recording a run

A recorder turns the notification stream of a run into an event tree. Each notice appends one step
and links it from the previous step of the same operation; a start is also linked from the creation
of its operation, and a receive from the send of its message. Monitor notices add no step: they say
which monitors are hot and since which step.
-/

namespace Interleave

/-- The recording of one run. The tables are association lists with one entry a key. -/
structure Recorder where
  tree : EventTree
  /-- Latest step of every operation seen so far. -/
  latest : List (OperationId × Nat)
  /-- Creations of operations that have not started yet, by created operation. -/
  pendingCreates : List (OperationId × Nat)
  /-- Delivered sends not received yet, by message. -/
  pendingSends : List (MessageId × Nat)
  /-- Number of steps so far, by label and event name. -/
  occurrences : List ((String × Option String) × Nat)
  /-- Hot monitors and the step at which each became hot. -/
  hotMonitors : List (String × Nat)
  deriving DecidableEq

/-- The table with the given entry in place of any other of its key. -/
def assoc {κ ν : Type} [BEq κ] (key : κ) (value : ν) (table : List (κ × ν)) : List (κ × ν) :=
  (key, value) :: table.filter fun entry => !entry.1 == key

/-- The table without the entry of the given key. -/
def dissoc {κ ν : Type} [BEq κ] (key : κ) (table : List (κ × ν)) : List (κ × ν) :=
  table.filter fun entry => !entry.1 == key

/-- What remains of a finished run. -/
structure RunSummary where
  tree : EventTree
  withheldSends : List Nat
  bugStep : Option Nat
  livenessMonitor : Option String
  size : Nat
  isLivenessBug : Bool
  deriving DecidableEq

/-- The JSON form of a summary, which leaves out the tree. -/
def RunSummary.toJson (s : RunSummary) : Json :=
  .record [
    ("withheld_sends", .array (s.withheldSends.map .natural)),
    ("bug_triggering_step", .optional .natural s.bugStep),
    ("liveness_monitor", .optional .text s.livenessMonitor),
    ("num_steps", .natural s.size),
    ("is_liveness_bug", .bool s.isLivenessBug)]

namespace Recorder

/-- The recording of a run in which only the harness has started. -/
def empty : Recorder where
  tree := .root
  latest := [(.harness, 0)]
  pendingCreates := []
  pendingSends := []
  occurrences := []
  hotMonitors := []

instance : Inhabited Recorder := ⟨empty⟩

/-- The latest step of an operation. -/
def latestOf (r : Recorder) (id : OperationId) : Option Nat :=
  r.latest.lookup id

/-- The steps with the same-operation link of one of them set. -/
def linkDirect (steps : Array Step) (source child : Nat) : Array Step :=
  steps.modify source fun s => { s with directChild := some child }

/-- The steps with the causal link of one of them set. -/
def linkCreated (steps : Array Step) (source child : Nat) : Array Step :=
  steps.modify source fun s => { s with createdChild := some child }

/-- Append a step, linked from the previous step of its operation. The result is its index. -/
def append (r : Recorder) (kind : StepKind) (source target : OperationId) (event : Option Event) :
    Nat × Recorder :=
  let index := r.tree.size
  let name := event.map (·.name)
  let key := (kind.label, name)
  let occurrence := (r.occurrences.lookup key).getD 0
  let step : Step := {
    index, kind, source, target, event
    directChild := none
    createdChild := none
    signature := ⟨name, occurrence, index, source, kind⟩ }
  let steps := match r.latestOf source with
    | some previous => linkDirect r.tree.steps previous index
    | none => r.tree.steps
  (index, { r with
    tree := { r.tree with steps := steps.push step }
    latest := assoc source index r.latest
    occurrences := assoc key (occurrence + 1) r.occurrences })

/-- The recording with a causal link between two of its steps. -/
def link (r : Recorder) (source child : Nat) : Recorder :=
  { r with tree := { r.tree with steps := linkCreated r.tree.steps source child } }

/-- Record that an operation created another. -/
def recordCreate (r : Recorder) (creator created : OperationId) : Nat × Recorder :=
  let (index, r) := r.append .create creator created none
  (index, { r with pendingCreates := assoc created index r.pendingCreates })

/-- Record the first step of an operation. That of the harness is the root and stands already. -/
def recordStart (r : Recorder) (id : OperationId) (initial : Option Event) : Nat × Recorder :=
  if id = .harness then (0, r)
  else
    let (index, r) := r.append .start id id initial
    match r.pendingCreates.lookup id with
    | some create =>
      (index, { r.link create index with pendingCreates := dissoc id r.pendingCreates })
    | none => (index, r)

/-- Record a send. -/
def recordSend (r : Recorder) (sender target : OperationId) (event : Event) : Nat × Recorder :=
  let (index, r) := r.append .send sender target (some event)
  match event.message with
  | some id => (index, { r with pendingSends := assoc id index r.pendingSends })
  | none => (index, r)

/-- Record a receive, linked from the pending send of its message. -/
def recordReceive (r : Recorder) (receiver : OperationId) (event : Event) : Nat × Recorder :=
  let (index, r) := r.append .receive receiver receiver (some event)
  match event.message.bind fun id => (r.pendingSends.lookup id).map fun send => (id, send) with
  | some (id, send) => (index, { r.link send index with pendingSends := dissoc id r.pendingSends })
  | none => (index, r)

/-- Record a choice. -/
def recordChoice (r : Recorder) (id : OperationId) (choice : Choice) : Nat × Recorder :=
  r.append (.ofChoice choice) id id none

/-- Record the state of a monitor. A monitor that is hot already keeps the step at which it became
hot. -/
def recordMonitor (r : Recorder) (monitor : String) (sender : OperationId) (hot : Bool) :
    Recorder :=
  if hot then
    match r.hotMonitors.lookup monitor with
    | some _ => r
    | none =>
      let since := (r.latestOf sender).getD r.tree.lastIndex
      { r with hotMonitors := assoc monitor since r.hotMonitors }
  else { r with hotMonitors := dissoc monitor r.hotMonitors }

/-- Record one notice. -/
def record (r : Recorder) : Notice → Recorder
  | .created creator created => (r.recordCreate creator created).2
  | .started id initial => (r.recordStart id initial).2
  | .received receiver event => (r.recordReceive receiver event).2
  | .chosen id choice => (r.recordChoice id choice).2
  | .monitored monitor sender hot => r.recordMonitor monitor sender hot

/-- Mark a recorded send as withheld: its message will not be received. A step of another kind stays
unmarked. -/
def markWithheld (r : Recorder) (send : Nat) : Recorder :=
  match r.tree.steps[send]? with
  | some step =>
    if step.kind = .send then
      let pending := match step.event.bind (·.message) with
        | some id => dissoc id r.pendingSends
        | none => r.pendingSends
      { r with pendingSends := pending, tree := r.tree.withhold send }
    else r
  | none => r

/-- Record a send and whether it was delivered. -/
def recordDelivery (r : Recorder) (sender target : OperationId) (event : Event)
    (delivery : Delivery) : Recorder :=
  let (index, r) := r.recordSend sender target event
  match delivery with
  | .deliver => r
  | .withhold => r.markWithheld index

/-- Record the result of the run. A liveness bug lies at the step since which its monitor is hot,
any other bug at the last step. -/
def recordEnd (r : Recorder) (bug : Option BugKind) : Recorder :=
  match bug with
  | none => r
  | some (.liveness monitor) =>
    let step := (r.hotMonitors.lookup monitor).getD r.tree.lastIndex
    { r with tree := { r.tree with livenessMonitor := some monitor }.setBug (some step) }
  | some _ => { r with tree := r.tree.setBug (some r.tree.lastIndex) }

/-- The summary of the run so far. -/
def summary (r : Recorder) : RunSummary where
  tree := r.tree
  withheldSends := r.tree.withheld
  bugStep := r.tree.bugStep
  livenessMonitor := r.tree.livenessMonitor
  size := r.tree.size
  isLivenessBug := r.tree.livenessMonitor.isSome

end Recorder

end Interleave
