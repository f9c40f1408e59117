import Interleave.Program.Action
import Interleave.Scheduler.Calls

/-!
# Running a program under a scheduler

A machine holds the scheduler, a `Thread` for every operation created so far, the inboxes and the
counters that number operations and messages. A thread asks the scheduler before every action that
others can see, and performs it when it is given control: creations, sends, receives and the end of
a body are scheduling points, while choices, monitors and log entries are not. `Machine.stepThread`
is one step of one thread, `Machine.step?` steps the first thread that is ready, and a run is over
when none is. A canceled thread exits at once.
-/

namespace Interleave

/-- What a parked thread does once it is given control. -/
inductive Pending (β : Type) where
  | start (body : β)
  | create (id : OperationId) (name : String) (child : β) (next : OperationId → β)
  | send (target : OperationId) (name : String) (value : UInt64) (next : β)
  | receive (again : β) (next : Message → β)
  | stop

/-- Where a thread stands. -/
inductive Status (β : Type) where
  /-- Its handler has not started yet. -/
  | starting (body : β)
  | running (body : β)
  /-- It waits for its slot to be activated. -/
  | parked (pending : Pending β)
  /-- It waits for the handler of an operation it has created. -/
  | awaiting (child : OperationId) (next : β)
  | exited

/-- The thread of one operation. -/
structure Thread (β : Type) where
  token : Token
  status : Status β

/-- The state of a run of a program with bodies `β` under a strategy of states `σ`. -/
structure Machine (σ β : Type) where
  scheduler : Scheduler σ
  /-- The threads, in the order of their creation. -/
  threads : List (Thread β)
  /-- The messages not received yet, oldest first, by operation. An operation without an entry has
  an empty inbox. -/
  inboxes : List (OperationId × List Message)
  nextOperation : UInt64
  nextMessage : UInt64
  /-- The log: values and the operations that wrote them, in order. -/
  log : Array (OperationId × Value)

namespace Machine

variable {σ β : Type} [Strategy σ]

/-- The inbox of an operation. -/
def inbox (m : Machine σ β) (id : OperationId) : List Message :=
  (m.inboxes.lookup id).getD []

/-- The machine with the given inbox of an operation. -/
def setInbox (m : Machine σ β) (id : OperationId) (messages : List Message) : Machine σ β :=
  { m with inboxes := (id, messages) :: m.inboxes.filter fun entry => entry.1 ≠ id }

/-- The machine with the given status of the threads that hold a token. -/
def setStatus (m : Machine σ β) (t : Token) (status : Status β) : Machine σ β :=
  { m with threads := m.threads.map fun thread =>
      if thread.token = t then { thread with status } else thread }

/-- The machine with a changed scheduler. -/
def withScheduler (m : Machine σ β) (f : Scheduler σ → Scheduler σ) : Machine σ β :=
  { m with scheduler := f m.scheduler }

/-- The harness, at its start, on a scheduler without operations. -/
def start (p : Program β) (s : Scheduler σ) : Machine σ β :=
  let (token, s) := s.create .harness "harness"
  { scheduler := s
    threads := [⟨token, .starting p.main⟩]
    inboxes := []
    nextOperation := 1
    nextMessage := 1
    log := #[] }

/-- Perform a creation: register the operation and let its thread start. -/
def performCreate (m : Machine σ β) (t : Token) (id : OperationId) (name : String)
    (child next : β) : Machine σ β :=
  let (token, s) := m.scheduler.create id name
  let created : Thread β := ⟨token, .starting child⟩
  { m with
    scheduler := s.notify (.created t.operation id)
    threads := m.threads ++ [created] }.setStatus t (.awaiting id next)

/-- Perform a send: number the message and, if it is to be delivered, put it into the inbox and wake
the receiver. -/
def performSend (m : Machine σ β) (t : Token) (target : OperationId) (name : String)
    (value : UInt64) (next : β) : Machine σ β :=
  let message : Message := ⟨⟨m.nextMessage⟩, t.operation, name, value⟩
  let (delivery, s) := m.scheduler.send t.operation target message.event
  let m := { m with scheduler := s, nextMessage := m.nextMessage + 1 }.setStatus t (.running next)
  match delivery with
  | .deliver =>
    (m.setInbox target (m.inbox target ++ [message])).withScheduler (·.unblock target)
  | .withhold => m

/-- Perform a receive: take the first message, or try again if there is none. -/
def performReceive (m : Machine σ β) (t : Token) (again : β) (next : Message → β) : Machine σ β :=
  match m.inbox t.operation with
  | [] => m.setStatus t (.running again)
  | message :: rest =>
    ((m.setInbox t.operation rest).withScheduler
      (·.notify (.received t.operation message.event))).setStatus t (.running (next message))

/-- Perform what a thread has waited for. The start of the harness is not announced. -/
def perform (m : Machine σ β) (t : Token) : Pending β → Machine σ β
  | .start body =>
    let m := m.setStatus t (.running body)
    if t.operation = .harness then m
    else m.withScheduler (·.notify (.started t.operation none))
  | .create id name child next => m.performCreate t id name child (next id)
  | .send target name value next => m.performSend t target name value next
  | .receive again next => m.performReceive t again next
  | .stop => m.setStatus t .exited

/-- Go on as the scheduler replies: perform the pending action, wait for control or exit. -/
def suspend (m : Machine σ β) (t : Token) (pending : Pending β) : Reply × Scheduler σ → Machine σ β
  | (.proceed, s) => { m with scheduler := s }.perform t pending
  | (.parked, s) => { m with scheduler := s }.setStatus t (.parked pending)
  | (.canceled, s) => { m with scheduler := s }.setStatus t .exited

/-- Go on with a decided value, or exit without one. -/
def continueWith {α : Type} (m : Machine σ β) (t : Token) (next : α → β) :
    Option α × Scheduler σ → Machine σ β
  | (some value, s) => { m with scheduler := s }.setStatus t (.running (next value))
  | (none, s) => { m with scheduler := s }.setStatus t .exited

/-- One action of a running thread. -/
def execute (m : Machine σ β) (t : Token) (body : β) : Action β → Machine σ β
  | .finish =>
    let m := m.withScheduler (·.complete t)
    m.suspend t .stop (m.scheduler.yield t .stop .operation t.operation)
  | .create name child next =>
    let id : OperationId := ⟨m.nextOperation⟩
    let m := { m with nextOperation := m.nextOperation + 1 }
    m.suspend t (.create id name child next) (m.scheduler.yield t .create .operation id)
  | .send target name value next =>
    m.suspend t (.send target name value next) (m.scheduler.yield t .send .inbox target)
  | .receive next =>
    let m := if (m.inbox t.operation).isEmpty then m.withScheduler (·.blockOnReceive t) else m
    m.suspend t (.receive body next) (m.scheduler.yield t .receive .inbox t.operation)
  | .boolean fairness next => m.continueWith t next (m.scheduler.nextBoolean t 2 fairness)
  | .integer max next => m.continueWith t next (m.scheduler.nextInteger t max)
  | .fail message => (m.withScheduler (·.failAssertion message)).setStatus t .exited
  | .report message next =>
    (m.withScheduler (·.reportAssertion message)).setStatus t (.running next)
  | .monitor name hot next =>
    (m.withScheduler (·.notify (.monitored name t.operation hot))).setStatus t (.running next)
  | .log value next => { m with log := m.log.push (t.operation, value) }.setStatus t (.running next)
  | .quiet next => m.setStatus t (.running next)

/-- One step of a thread, or nothing if it has to wait or has exited. -/
def stepThread (p : Program β) (m : Machine σ β) (thread : Thread β) : Option (Machine σ β) :=
  let t := thread.token
  match thread.status with
  | .starting body => some (m.suspend t (.start body) (m.scheduler.start t))
  | .running body => some (m.execute t body (p.act t.operation body))
  | .parked pending =>
    match (m.scheduler.slot? t.operation).map Slot.wake with
    | some .proceed => some (m.perform t pending)
    | some .canceled => some (m.setStatus t .exited)
    | _ => none
  | .awaiting child next =>
    if (m.scheduler.slot? child).any Slot.handlerReady then some (m.setStatus t (.running next))
    else none
  | .exited => none

/-- One step of the first thread that is ready. -/
def step? (p : Program β) (m : Machine σ β) : Option (Machine σ β) :=
  m.threads.findSome? (stepThread p m)

/-- The machine after at most the given number of steps. -/
def runFor (p : Program β) : Nat → Machine σ β → Machine σ β
  | 0, m => m
  | fuel + 1, m =>
    match step? p m with
    | some next => runFor p fuel next
    | none => m

/-- The number of steps after which a run is given up. A step hands out at most one identity, so
that identities do not run out before. -/
def stepLimit : Nat := UInt64.size - 2

end Machine

/-- The whole run of a program on a scheduler without operations. -/
def Program.run {σ β : Type} [Strategy σ] (p : Program β) (s : Scheduler σ) : Machine σ β :=
  Machine.runFor p Machine.stepLimit (.start p s)

end Interleave
