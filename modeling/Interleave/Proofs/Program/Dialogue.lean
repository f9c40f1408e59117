import Interleave.Program.Machine
import Interleave.Proofs.Scheduler.Dialogue

/-!
# What a run says to its strategy

The dialogue of a run is what its steps say one after the other (`Machine.runSaid`). The strategy of
the run follows it (`Machine.follows_run`), and the run is determined by it: a machine on another
host whose strategy follows the same dialogue goes through the same states
(`Machine.runFor_rehost`). The schedule of a run is what the dialogue logs.
-/

namespace Interleave

variable {σ τ β : Type}

/-- The thread with its token relabelled. -/
def Thread.relabel (thread : Thread β) (f : Equiv.Perm Nat) : Thread β :=
  { thread with token := thread.token.relabel f }

/-- What a thread declares when it comes to a scheduling point with a pending action. -/
def Pending.declared (id : OperationId) : Pending β → Declared
  | .start _ => .start id
  | .create child _ _ _ => ⟨.create, .operation, child, none⟩
  | .send target _ _ _ => ⟨.send, .inbox, target, none⟩
  | .receive _ _ => ⟨.receive, .inbox, id, none⟩
  | .stop => ⟨.stop, .operation, id, none⟩

theorem Pending.declared_eta (pending : Pending β) (id : OperationId) :
    ⟨(pending.declared id).kind, (pending.declared id).targetKind, (pending.declared id).target,
      none⟩ = pending.declared id := by
  cases pending <;> rfl

namespace Machine

/-- The same state of a run on another host. -/
@[simps]
def rehost (m : Machine σ β) (f : Equiv.Perm Nat) (q : τ) (schedule : Schedule) :
    Machine τ β where
  scheduler := m.scheduler.rehost f q schedule
  threads := m.threads.map (·.relabel f)
  inboxes := m.inboxes
  nextOperation := m.nextOperation
  nextMessage := m.nextMessage
  log := m.log

variable (m : Machine σ β) (f : Equiv.Perm Nat) (q : τ) (schedule : Schedule)

@[simp]
theorem rehost_self : m.rehost (Equiv.refl Nat) m.scheduler.strategy m.scheduler.schedule = m := by
  have hthreads : m.threads.map (·.relabel (Equiv.refl Nat)) = m.threads := List.map_id' _
  unfold rehost
  rw [hthreads, Scheduler.rehost_self]

@[simp]
theorem inbox_rehost (id : OperationId) : (m.rehost f q schedule).inbox id = m.inbox id := rfl

theorem setStatus_rehost (t : Token) (status : Status β) :
    (m.rehost f q schedule).setStatus (t.relabel f) status =
      (m.setStatus t status).rehost f q schedule := by
  have hthreads : ((m.threads.map (·.relabel f)).map fun thread =>
      if thread.token = t.relabel f then { thread with status } else thread) =
        (m.threads.map fun thread =>
          if thread.token = t then { thread with status } else thread).map (·.relabel f) := by
    simp only [List.map_map]
    refine List.map_congr_left fun thread _ => ?_
    by_cases h : thread.token = t
    · simp [h, Thread.relabel]
    · simp [h, Thread.relabel]
  unfold setStatus rehost
  rw [hthreads]

theorem scheduler_continueWith {α : Type} (t : Token) (next : α → β)
    (r : Option α × Scheduler σ) : (m.continueWith t next r).scheduler = r.2 := by
  obtain ⟨value, s⟩ := r
  cases value <;> rfl

/-- A machine at the start of a program on another host. -/
theorem start_rehost (p : Program β) (s : Scheduler σ) (f : Equiv.Perm Nat) (q : τ)
    (schedule : Schedule) :
    (start p s).rehost f q schedule = start p (s.rehost f q schedule) := by
  simp only [start, Scheduler.create_rehost]
  rfl

theorem continueWith_rehost {α : Type} (t : Token) (next : α → β) (r : Option α × Scheduler σ)
    (q' : τ) (schedule' : Schedule) :
    (m.rehost f q schedule).continueWith (t.relabel f) next
        (Scheduler.rehostResult r f q' schedule') =
      (m.continueWith t next r).rehost f q' schedule' := by
  obtain ⟨value, s⟩ := r
  cases value with
  | none => exact setStatus_rehost { m with scheduler := s } f q' schedule' t _
  | some value => exact setStatus_rehost { m with scheduler := s } f q' schedule' t _

/-- The machine in which a thread comes to its next scheduling point, and what is pending there; a
thread whose action is not visible to others does not come to one. -/
def approach (m : Machine σ β) (t : Token) (body : β) :
    Action β → Option (Machine σ β × Pending β)
  | .finish => some (m.withScheduler (·.complete t), .stop)
  | .create name child next =>
    some ({ m with nextOperation := m.nextOperation + 1 },
      .create ⟨m.nextOperation⟩ name child next)
  | .send target name value next => some (m, .send target name value next)
  | .receive next =>
    some (if (m.inbox t.operation).isEmpty then m.withScheduler (·.blockOnReceive t) else m,
      .receive body next)
  | _ => none

theorem strategy_approach {m m' : Machine σ β} {t : Token} {body : β} {action : Action β}
    {pending : Pending β} (h : m.approach t body action = some (m', pending)) :
    m'.scheduler.strategy = m.scheduler.strategy := by
  cases action <;> cases h <;> try rfl
  split <;> rfl

theorem approach_rehost {m m' : Machine σ β} {t : Token} {body : β} {action : Action β}
    {pending : Pending β} (h : m.approach t body action = some (m', pending)) :
    (m.rehost f q schedule).approach (t.relabel f) body action =
      some (m'.rehost f q schedule, pending) := by
  cases action <;> cases h <;> try rfl
  cases hempty : (m.inbox t.operation).isEmpty with
  | true =>
      simp only [approach, Token.operation_relabel, inbox_rehost, hempty, if_true]
      rfl
  | false =>
      simp only [approach, Token.operation_relabel, inbox_rehost, hempty, Bool.false_eq_true,
        if_false]

variable [Strategy σ] [Strategy τ]

/-- A thread comes to a scheduling point with a pending action. -/
def arrive (m : Machine σ β) (t : Token) (pending : Pending β) : Machine σ β :=
  let next := pending.declared t.operation
  m.suspend t pending (m.scheduler.yield t next.kind next.targetKind next.target)

/-- The yield at which a pending action is declared. -/
def declare (m : Machine σ β) (t : Token) (pending : Pending β) : Reply × Scheduler σ :=
  m.scheduler.yield t (pending.declared t.operation).kind
    (pending.declared t.operation).targetKind (pending.declared t.operation).target

theorem arrive_eq (m : Machine σ β) (t : Token) (pending : Pending β) :
    m.arrive t pending = m.suspend t pending (m.declare t pending) := rfl

theorem execute_of_approach {m m' : Machine σ β} {t : Token} {body : β} {action : Action β}
    {pending : Pending β} (h : m.approach t body action = some (m', pending)) :
    m.execute t body action = m'.arrive t pending := by
  cases action <;> cases h <;> rfl

/-! ## Dialogues of single steps -/

/-- The dialogue of a pending action. -/
def performSaid (m : Machine σ β) (t : Token) : Pending β → List Exchange
  | .start _ =>
    if t.operation = .harness then [] else m.scheduler.noticeSaid (.started t.operation none)
  | .create id _ _ _ => m.scheduler.noticeSaid (.created t.operation id)
  | .send target name value _ =>
    m.scheduler.sendSaid t.operation target
      (Message.mk ⟨m.nextMessage⟩ t.operation name value).event
  | .receive _ _ =>
    match m.inbox t.operation with
    | [] => []
    | message :: _ => m.scheduler.noticeSaid (.received t.operation message.event)
  | .stop => []

/-- The dialogue that follows the scheduler's reply. -/
def suspendSaid (m : Machine σ β) (t : Token) (pending : Pending β) :
    Reply × Scheduler σ → List Exchange
  | (.proceed, s) => { m with scheduler := s }.performSaid t pending
  | _ => []

/-- The dialogue of an arrival. -/
def arriveSaid (m : Machine σ β) (t : Token) (pending : Pending β) : List Exchange :=
  let next := pending.declared t.operation
  m.scheduler.yieldSaid t next ++
    m.suspendSaid t pending (m.scheduler.yield t next.kind next.targetKind next.target)

theorem arriveSaid_eq (m : Machine σ β) (t : Token) (pending : Pending β) :
    m.arriveSaid t pending =
      m.scheduler.yieldSaid t (pending.declared t.operation) ++
        m.suspendSaid t pending (m.declare t pending) := rfl

/-- The dialogue of one action of a running thread. -/
def executeSaid (m : Machine σ β) (t : Token) (body : β) (action : Action β) : List Exchange :=
  match m.approach t body action with
  | some (m', pending) => m'.arriveSaid t pending
  | none =>
    match action with
    | .boolean fairness _ => m.scheduler.booleanSaid t 2 fairness
    | .integer max _ => m.scheduler.integerSaid t max
    | .monitor name hot _ => m.scheduler.noticeSaid (.monitored name t.operation hot)
    | _ => []

/-- What a thread can do in one action, with what it says. -/
inductive ActionStep (m : Machine σ β) (t : Token) (body : β) :
    Action β → List Exchange → Machine σ β → Prop
  /-- It comes to a scheduling point. -/
  | arrives {action : Action β} {m' : Machine σ β} {pending : Pending β}
      (approach : m.approach t body action = some (m', pending)) :
      ActionStep m t body action (m'.arriveSaid t pending) (m'.arrive t pending)
  /-- It asks for a Boolean. -/
  | flips (fairness : Option String) (next : Bool → β) :
      ActionStep m t body (.boolean fairness next) (m.scheduler.booleanSaid t 2 fairness)
        (m.continueWith t next (m.scheduler.nextBoolean t 2 fairness))
  /-- It asks for an integer. -/
  | rolls (max : UInt32) (next : UInt32 → β) :
      ActionStep m t body (.integer max next) (m.scheduler.integerSaid t max)
        (m.continueWith t next (m.scheduler.nextInteger t max))
  /-- It tells of a monitor. -/
  | tells (name : String) (hot : Bool) (next : β) :
      ActionStep m t body (.monitor name hot next)
        (m.scheduler.noticeSaid (.monitored name t.operation hot))
        ((m.withScheduler (·.notify (.monitored name t.operation hot))).setStatus t
          (.running next))
  /-- An assertion fails, and it exits. -/
  | fails (message : String) :
      ActionStep m t body (.fail message) []
        ((m.withScheduler (·.failAssertion message)).setStatus t .exited)
  /-- It reports a failed assertion and goes on. -/
  | reports (message : String) (next : β) :
      ActionStep m t body (.report message next) []
        ((m.withScheduler (·.reportAssertion message)).setStatus t (.running next))
  /-- It writes to the log. -/
  | logs (value : Value) (next : β) :
      ActionStep m t body (.log value next) []
        ({ m with log := m.log.push (t.operation, value) }.setStatus t (.running next))
  /-- It goes on unseen. -/
  | hides (next : β) :
      ActionStep m t body (.quiet next) [] (m.setStatus t (.running next))

theorem ActionStep.of_execute (m : Machine σ β) (t : Token) (body : β) (action : Action β) :
    ActionStep m t body action (m.executeSaid t body action) (m.execute t body action) := by
  unfold executeSaid
  cases happ : m.approach t body action with
  | some arrival =>
      rw [execute_of_approach happ]
      exact .arrives happ
  | none =>
      cases action with
      | boolean fairness next => exact .flips fairness next
      | integer max next => exact .rolls max next
      | monitor name hot next => exact .tells name hot next
      | fail message => exact .fails message
      | report message next => exact .reports message next
      | log value next => exact .logs value next
      | quiet next => exact .hides next
      | finish | create _ _ _ | send _ _ _ _ | receive _ => cases happ

/-- The dialogue of one step of a thread. -/
def threadSaid (p : Program β) (m : Machine σ β) (thread : Thread β) : List Exchange :=
  let t := thread.token
  match thread.status with
  | .starting body => m.suspendSaid t (.start body) (m.scheduler.start t)
  | .running body => m.executeSaid t body (p.act t.operation body)
  | .parked pending =>
    match (m.scheduler.slot? t.operation).map Slot.wake with
    | some .proceed => m.performSaid t pending
    | _ => []
  | _ => []

/-- What a thread can do in one step, with what it says. -/
inductive ThreadStep (p : Program β) (m : Machine σ β) :
    Thread β → List Exchange → Machine σ β → Prop
  /-- Its handler starts. -/
  | starts (t : Token) (body : β) :
      ThreadStep p m ⟨t, .starting body⟩
        (m.suspendSaid t (.start body) (m.scheduler.start t))
        (m.suspend t (.start body) (m.scheduler.start t))
  /-- It takes its next action. -/
  | acts (t : Token) (body : β) :
      ThreadStep p m ⟨t, .running body⟩ (m.executeSaid t body (p.act t.operation body))
        (m.execute t body (p.act t.operation body))
  /-- It gets control and performs what it has declared. -/
  | performs {t : Token} {pending : Pending β}
      (wake : (m.scheduler.slot? t.operation).map Slot.wake = some .proceed) :
      ThreadStep p m ⟨t, .parked pending⟩ (m.performSaid t pending) (m.perform t pending)
  /-- It is canceled and exits. -/
  | cancels {t : Token} {pending : Pending β}
      (wake : (m.scheduler.slot? t.operation).map Slot.wake = some .canceled) :
      ThreadStep p m ⟨t, .parked pending⟩ [] (m.setStatus t .exited)
  /-- The operation that it has created is known, and it goes on. -/
  | resumes {t : Token} {child : OperationId} {next : β}
      (ready : (m.scheduler.slot? child).any Slot.handlerReady = true) :
      ThreadStep p m ⟨t, .awaiting child next⟩ [] (m.setStatus t (.running next))

theorem ThreadStep.of_stepThread {p : Program β} {m m' : Machine σ β} {thread : Thread β}
    (h : stepThread p m thread = some m') : ThreadStep p m thread (threadSaid p m thread) m' := by
  obtain ⟨t, status⟩ := thread
  unfold stepThread at h
  unfold threadSaid
  cases status with
  | starting body =>
      cases h
      exact .starts t body
  | running body =>
      cases h
      exact .acts t body
  | parked pending =>
      cases hwake : (m.scheduler.slot? t.operation).map Slot.wake with
      | none => simp [hwake] at h
      | some reply =>
          simp only [hwake] at h ⊢
          cases reply with
          | proceed =>
              cases h
              exact .performs hwake
          | canceled =>
              cases h
              exact .cancels hwake
          | parked => cases h
  | awaiting child next =>
      simp only at h
      split at h
      · cases h
        exact .resumes ‹_›
      · cases h
  | exited => cases h

/-- What has been pending is announced in one exchange at most. -/
theorem performSaid_cases (t : Token) (pending : Pending β) :
    m.performSaid t pending = [] ∨
      ∃ e : Exchange, m.performSaid t pending = [e] ∧ e.logged? = none ∧ e.isRequest = false := by
  have hnotice : ∀ n, m.scheduler.noticeSaid n = [] ∨ ∃ e : Exchange,
      m.scheduler.noticeSaid n = [e] ∧ e.logged? = none ∧ e.isRequest = false := fun n =>
    (m.scheduler.noticeSaid_cases n).imp_right fun hsaid => ⟨_, hsaid, rfl, rfl⟩
  cases pending with
  | start body =>
      simp only [performSaid]
      split
      · exact Or.inl rfl
      · exact hnotice _
  | create id name child next => exact hnotice _
  | send target name value next =>
      exact (m.scheduler.sendSaid_cases _ _ _).imp_right fun ⟨_, hsaid⟩ => ⟨_, hsaid, rfl, rfl⟩
  | receive again next =>
      simp only [performSaid]
      split
      · exact Or.inl rfl
      · exact hnotice _
  | stop => exact Or.inl rfl

theorem logged_performSaid (t : Token) (pending : Pending β) :
    logged (m.performSaid t pending) = [] := by
  rcases performSaid_cases m t pending with hsaid | ⟨e, hsaid, hlogged, -⟩
  · rw [hsaid, logged_nil]
  · rw [hsaid]
    simp [logged, hlogged]

theorem logged_suspendSaid (t : Token) (pending : Pending β) (r : Reply × Scheduler σ) :
    logged (m.suspendSaid t pending r) = [] := by
  obtain ⟨reply, s⟩ := r
  cases reply with
  | proceed => exact logged_performSaid _ t pending
  | canceled => rfl
  | parked => rfl

/-! ## Following the dialogue of a step -/

theorem follows_perform (t : Token) (pending : Pending β) :
    Follows m.scheduler.strategy (m.performSaid t pending)
      (m.perform t pending).scheduler.strategy := by
  cases pending with
  | start body =>
      by_cases h : t.operation = .harness
      · simp only [performSaid, perform, if_pos h]
        rfl
      · simp only [performSaid, perform, if_neg h]
        exact Scheduler.follows_notify m.scheduler _
  | create id name child next =>
      have h := Scheduler.follows_notify (m.scheduler.create id name).2 (.created t.operation id)
      rw [Scheduler.strategy_create] at h
      simp only [performSaid, Scheduler.noticeSaid, Scheduler.running_create] at h ⊢
      exact h
  | send target name value next =>
      have h := Scheduler.follows_send m.scheduler t.operation target
        (Message.mk ⟨m.nextMessage⟩ t.operation name value).event
      unfold perform performSend
      dsimp only
      split
      · exact h
      · exact h
  | receive again next =>
      simp only [performSaid, perform, performReceive]
      cases m.inbox t.operation with
      | nil => rfl
      | cons message rest => exact Scheduler.follows_notify m.scheduler _
  | stop => rfl

theorem follows_suspend (t : Token) (pending : Pending β) (r : Reply × Scheduler σ) :
    Follows r.2.strategy (m.suspendSaid t pending r)
      (m.suspend t pending r).scheduler.strategy := by
  obtain ⟨reply, s⟩ := r
  cases reply with
  | proceed => exact follows_perform { m with scheduler := s } t pending
  | canceled => rfl
  | parked => rfl

theorem follows_declare (t : Token) (pending : Pending β) :
    Follows m.scheduler.strategy (m.scheduler.yieldSaid t (pending.declared t.operation))
      (m.declare t pending).2.strategy := by
  have hyield := Scheduler.follows_yield m.scheduler t (pending.declared t.operation).kind
    (pending.declared t.operation).targetKind (pending.declared t.operation).target
  rwa [Pending.declared_eta] at hyield

theorem follows_arrive (t : Token) (pending : Pending β) :
    Follows m.scheduler.strategy (m.arriveSaid t pending)
      (m.arrive t pending).scheduler.strategy :=
  follows_append.mpr ⟨_, follows_declare m t pending, follows_suspend m t pending _⟩

theorem follows_execute (t : Token) (body : β) (action : Action β) :
    Follows m.scheduler.strategy (m.executeSaid t body action)
      (m.execute t body action).scheduler.strategy := by
  have hact := ActionStep.of_execute m t body action
  generalize m.executeSaid t body action = l, m.execute t body action = m' at hact ⊢
  cases hact with
  | @arrives _ m₁ pending happ =>
      rw [← strategy_approach happ]
      exact follows_arrive m₁ t pending
  | flips fairness next =>
      rw [scheduler_continueWith]
      exact Scheduler.follows_nextBoolean m.scheduler t 2 fairness
  | rolls max next =>
      rw [scheduler_continueWith]
      exact Scheduler.follows_nextInteger m.scheduler t max
  | tells name hot next => exact Scheduler.follows_notify m.scheduler _
  | fails _ | reports _ _ | logs _ _ | hides _ => rfl

/-- The strategy of a run follows the dialogue of every step. -/
theorem follows_stepThread {p : Program β} {m m' : Machine σ β} {thread : Thread β}
    (h : stepThread p m thread = some m') :
    Follows m.scheduler.strategy (threadSaid p m thread) m'.scheduler.strategy := by
  have hstep := ThreadStep.of_stepThread h
  generalize threadSaid p m thread = l at hstep ⊢
  cases hstep with
  | starts t body =>
      have hfollows := follows_suspend m t (.start body) (m.scheduler.start t)
      rwa [Scheduler.strategy_start] at hfollows
  | acts t body => exact follows_execute m t body (p.act t.operation body)
  | performs _ => exact follows_perform m _ _
  | cancels _ | resumes _ => rfl

/-! ## The same step on another host -/

variable {q' : τ}

theorem perform_rehost (t : Token) (pending : Pending β)
    (h : Follows q (m.performSaid t pending) q') :
    (m.rehost f q schedule).perform (t.relabel f) pending =
      (m.perform t pending).rehost f q' schedule := by
  cases pending with
  | start body =>
      by_cases hid : t.operation = .harness
      · simp only [performSaid, if_pos hid] at h
        obtain rfl := h
        simp only [perform, Token.operation_relabel, hid, if_true]
        exact setStatus_rehost m f q' schedule t _
      · simp only [performSaid, if_neg hid] at h
        simp only [perform, Token.operation_relabel, if_neg hid, setStatus_rehost]
        exact congrArg (fun s => { (m.setStatus t (.running body)).rehost f q' schedule with
          scheduler := s }) (Scheduler.notify_rehost m.scheduler f schedule _ h)
  | create id name child next =>
      -- the creation is announced by a scheduler that has the new operation already
      have hsaid : (m.scheduler.create id name).2.noticeSaid (.created t.operation id) =
          m.scheduler.noticeSaid (.created t.operation id) := by
        simp only [Scheduler.noticeSaid, Scheduler.running_create]
      have h : Follows q (m.scheduler.noticeSaid (.created t.operation id)) q' := h
      rw [← hsaid] at h
      have hnotify := Scheduler.notify_rehost (m.scheduler.create id name).2 f schedule _ h
      simp only [perform, performCreate, rehost_scheduler, Scheduler.create_rehost,
        Token.operation_relabel, hnotify]
      rw [← setStatus_rehost]
      congr 1
      simp [rehost, Thread.relabel]
  | send target name value next =>
      have hsend := Scheduler.send_rehost m.scheduler f schedule t.operation target _ h
      simp only [perform, performSend, rehost_scheduler, Token.operation_relabel,
        rehost_nextMessage, hsend, Scheduler.rehostResult]
      -- the delivery does not depend on the host, and neither does what it does to the inbox
      let sent : Machine σ β :=
        { m with
          scheduler := (m.scheduler.send t.operation target
            (Message.mk ⟨m.nextMessage⟩ t.operation name value).event).2
          nextMessage := m.nextMessage + 1 }
      have hset := setStatus_rehost sent f q' schedule t (.running next)
      simp only [sent, rehost] at hset ⊢
      rw [hset]
      split <;> rfl
  | receive again next =>
      simp only [perform, performReceive, Token.operation_relabel, inbox_rehost]
      simp only [performSaid] at h
      cases hinbox : m.inbox t.operation with
      | nil =>
          rw [hinbox] at h
          obtain rfl := h
          exact setStatus_rehost m f q' schedule t _
      | cons message rest =>
          rw [hinbox] at h
          let taken := (m.setInbox t.operation rest).withScheduler
            (·.notify (.received t.operation message.event))
          have hset := setStatus_rehost taken f q' schedule t (.running (next message))
          rw [← hset]
          exact congrArg (fun s =>
            setStatus { (m.setInbox t.operation rest).rehost f q' schedule with scheduler := s }
              (t.relabel f) (.running (next message)))
            (Scheduler.notify_rehost m.scheduler f schedule _ h)
  | stop =>
      obtain rfl := h
      exact setStatus_rehost m f q' schedule t .exited

theorem suspend_rehost (t : Token) (pending : Pending β) (r : Reply × Scheduler σ)
    (h : Follows q (m.suspendSaid t pending r) q') :
    (m.rehost f q schedule).suspend (t.relabel f) pending (Scheduler.rehostResult r f q schedule) =
      (m.suspend t pending r).rehost f q' schedule := by
  obtain ⟨reply, s⟩ := r
  cases reply with
  | proceed => exact perform_rehost { m with scheduler := s } f q schedule t pending h
  | canceled =>
      obtain rfl := h
      exact setStatus_rehost { m with scheduler := s } f q' schedule t .exited
  | parked =>
      obtain rfl := h
      exact setStatus_rehost { m with scheduler := s } f q' schedule t (.parked pending)

theorem declare_rehost (t : Token) (pending : Pending β)
    (h : Follows q (m.scheduler.yieldSaid t (pending.declared t.operation)) q') :
    (m.rehost f q schedule).declare (t.relabel f) pending =
      Scheduler.rehostResult (m.declare t pending) f q'
        (schedule.extend (m.scheduler.yieldSaid t (pending.declared t.operation))) := by
  rw [← Pending.declared_eta] at h
  have hcall := Scheduler.yield_rehost m.scheduler f schedule t _ _ _ h
  rwa [Pending.declared_eta] at hcall

theorem arrive_rehost (t : Token) (pending : Pending β)
    (h : Follows q (m.arriveSaid t pending) q') :
    (m.rehost f q schedule).arrive (t.relabel f) pending =
      (m.arrive t pending).rehost f q' (schedule.extend (m.arriveSaid t pending)) := by
  obtain ⟨q₁, hdeclare, hsuspend⟩ := follows_append.mp h
  rw [arriveSaid_eq, Schedule.extend_append,
    Schedule.extend_of_logged_eq_nil _ (logged_suspendSaid m t pending _), arrive_eq,
    declare_rehost m f q schedule t pending hdeclare]
  exact suspend_rehost m f q₁ _ t pending _ hsuspend

theorem execute_rehost (t : Token) (body : β) (action : Action β)
    (h : Follows q (m.executeSaid t body action) q') :
    (m.rehost f q schedule).execute (t.relabel f) body action =
      (m.execute t body action).rehost f q' (schedule.extend (m.executeSaid t body action)) := by
  have hact := ActionStep.of_execute m t body action
  generalize m.executeSaid t body action = l, m.execute t body action = m' at hact h ⊢
  cases hact with
  | @arrives _ m₁ pending happ =>
      rw [execute_of_approach (approach_rehost f q schedule happ)]
      exact arrive_rehost m₁ f q schedule t pending h
  | flips fairness next =>
      simp only [execute, rehost_scheduler, Scheduler.nextBoolean_rehost m.scheduler f schedule
        t 2 fairness h]
      exact continueWith_rehost m f q schedule t next _ q' _
  | rolls max next =>
      simp only [execute, rehost_scheduler, Scheduler.nextInteger_rehost m.scheduler f schedule
        t max h]
      exact continueWith_rehost m f q schedule t next _ q' _
  | tells name hot next =>
      have hnotify := Scheduler.notify_rehost m.scheduler f schedule _ h
      have hlog := m.scheduler.logged_noticeSaid (.monitored name t.operation hot)
      rw [Schedule.extend_of_logged_eq_nil schedule hlog, ← setStatus_rehost]
      exact congrArg (fun s => setStatus { m.rehost f q' schedule with scheduler := s }
        (t.relabel f) (.running next)) hnotify
  | fails message =>
      obtain rfl := h
      exact setStatus_rehost (m.withScheduler (·.failAssertion message)) f q' schedule t .exited
  | reports message next =>
      obtain rfl := h
      exact setStatus_rehost (m.withScheduler (·.reportAssertion message)) f q' schedule t
        (.running next)
  | logs value next =>
      obtain rfl := h
      exact setStatus_rehost { m with log := m.log.push (t.operation, value) } f q' schedule t
        (.running next)
  | hides next =>
      obtain rfl := h
      exact setStatus_rehost m f q' schedule t (.running next)

/-- One step of a thread is the same on another host whose strategy follows its dialogue. -/
theorem stepThread_rehost {p : Program β} {m m' : Machine σ β} {thread : Thread β}
    (hstep : stepThread p m thread = some m') (h : Follows q (threadSaid p m thread) q') :
    stepThread p (m.rehost f q schedule) (thread.relabel f) =
      some (m'.rehost f q' (schedule.extend (threadSaid p m thread))) := by
  have hthread := ThreadStep.of_stepThread hstep
  generalize threadSaid p m thread = l at hthread h ⊢
  -- what wakes the thread here wakes it there, as the slots are the same
  cases hthread with
  | starts t body =>
      rw [Schedule.extend_of_logged_eq_nil _ (logged_suspendSaid m t _ _)]
      simp only [stepThread, Thread.relabel, rehost_scheduler, Scheduler.start_rehost]
      exact congrArg some (suspend_rehost m f q schedule t _ _ h)
  | acts t body => exact congrArg some (execute_rehost m f q schedule t body _ h)
  | @performs t pending wake =>
      rw [Schedule.extend_of_logged_eq_nil _ (logged_performSaid m t _)]
      simp only [stepThread, Thread.relabel, Token.operation_relabel, rehost_scheduler,
        Scheduler.slot?_rehost, wake]
      exact congrArg some (perform_rehost m f q schedule t pending h)
  | @cancels t pending wake =>
      obtain rfl := h
      simp only [stepThread, Thread.relabel, Token.operation_relabel, rehost_scheduler,
        Scheduler.slot?_rehost, wake]
      exact congrArg some (setStatus_rehost m f q' schedule t .exited)
  | @resumes t child next ready =>
      obtain rfl := h
      simp only [stepThread, Thread.relabel, rehost_scheduler, Scheduler.slot?_rehost,
        if_pos ready]
      exact congrArg some (setStatus_rehost m f q' schedule t (.running next))

/-- A thread that has to wait or has exited does so on every host. -/
theorem stepThread_rehost_eq_none {p : Program β} {m : Machine σ β} {thread : Thread β} :
    stepThread p (m.rehost f q schedule) (thread.relabel f) = none ↔
      stepThread p m thread = none := by
  obtain ⟨t, status⟩ := thread
  unfold stepThread
  cases status with
  | starting body => simp [Thread.relabel]
  | running body => simp [Thread.relabel]
  | parked pending =>
      simp only [Thread.relabel, Token.operation_relabel, rehost_scheduler,
        Scheduler.slot?_rehost]
      rcases (m.scheduler.slot? t.operation).map Slot.wake with _ | _ | _ | _ <;> simp
  | awaiting child next =>
      simp only [Thread.relabel, rehost_scheduler, Scheduler.slot?_rehost]
      split <;> simp
  | exited => simp [Thread.relabel]

/-! ## Whole runs -/

/-- The dialogue of one step of the first thread that is ready. -/
def stepSaid (p : Program β) (m : Machine σ β) : List Exchange :=
  match m.threads.find? fun thread => (stepThread p m thread).isSome with
  | some thread => threadSaid p m thread
  | none => []

/-- The dialogue of at most the given number of steps. -/
def runSaid (p : Program β) : Nat → Machine σ β → List Exchange
  | 0, _ => []
  | fuel + 1, m =>
    match step? p m with
    | some next => stepSaid p m ++ runSaid p fuel next
    | none => []

/-- A step is that of a thread behind threads that all have to wait. -/
theorem exists_thread_of_step? {p : Program β} {m m' : Machine σ β} (h : step? p m = some m') :
    ∃ before thread after, m.threads = before ++ thread :: after ∧
      stepThread p m thread = some m' ∧ (∀ other ∈ before, stepThread p m other = none) ∧
      stepSaid p m = threadSaid p m thread := by
  obtain ⟨before, thread, after, hthreads, hstep, hbefore⟩ := List.findSome?_eq_some_iff.mp h
  have hfind : m.threads.find? (fun thread => (stepThread p m thread).isSome) = some thread := by
    refine List.find?_eq_some_iff_append.mpr ⟨by rw [hstep]; rfl, before, after, hthreads, ?_⟩
    intro other hother
    rw [hbefore other hother]
    rfl
  refine ⟨before, thread, after, hthreads, hstep, hbefore, ?_⟩
  simp only [stepSaid, hfind]

theorem follows_step? {p : Program β} {m m' : Machine σ β} (h : step? p m = some m') :
    Follows m.scheduler.strategy (stepSaid p m) m'.scheduler.strategy := by
  obtain ⟨before, thread, after, -, hstep, -, hsaid⟩ := exists_thread_of_step? h
  rw [hsaid]
  exact follows_stepThread hstep

theorem step?_rehost {p : Program β} {m m' : Machine σ β} (hstep : step? p m = some m')
    (h : Follows q (stepSaid p m) q') :
    step? p (m.rehost f q schedule) =
      some (m'.rehost f q' (schedule.extend (stepSaid p m))) := by
  obtain ⟨before, thread, after, hthreads, hthread, hbefore, hsaid⟩ :=
    exists_thread_of_step? hstep
  rw [hsaid] at h ⊢
  refine List.findSome?_eq_some_iff.mpr
    ⟨before.map (·.relabel f), thread.relabel f, after.map (·.relabel f), ?_, ?_, ?_⟩
  · simp [hthreads]
  · exact stepThread_rehost f q schedule hthread h
  · intro other hother
    obtain ⟨old, hold, rfl⟩ := List.mem_map.mp hother
    exact (stepThread_rehost_eq_none f q schedule).mpr (hbefore old hold)

theorem step?_rehost_eq_none {p : Program β} {m : Machine σ β} :
    step? p (m.rehost f q schedule) = none ↔ step? p m = none := by
  simp [step?, stepThread_rehost_eq_none]

/-- The strategy of a run follows the dialogue of the run. -/
theorem follows_run (p : Program β) (n : Nat) (m : Machine σ β) :
    Follows m.scheduler.strategy (runSaid p n m) (runFor p n m).scheduler.strategy := by
  induction n generalizing m with
  | zero => rfl
  | succ n ih =>
      unfold runSaid runFor
      cases hstep : step? p m with
      | none => rfl
      | some next => exact follows_append.mpr ⟨_, follows_step? hstep, ih next⟩

/-- A run is the same on another host whose strategy follows its dialogue. -/
theorem runFor_rehost (p : Program β) (n : Nat) (m : Machine σ β) (f : Equiv.Perm Nat) {q q' : τ}
    (schedule : Schedule) (h : Follows q (runSaid p n m) q') :
    runFor p n (m.rehost f q schedule) =
      (runFor p n m).rehost f q' (schedule.extend (runSaid p n m)) := by
  -- every step leaves the other strategy where the dialogue of the step leads it
  induction n generalizing m q schedule with
  | zero =>
      obtain rfl := h
      simp [runFor, runSaid]
  | succ n ih =>
      unfold runSaid at h ⊢
      cases hstep : step? p m with
      | none =>
          simp only [hstep] at h
          obtain rfl := h
          simp [runFor, hstep, (step?_rehost_eq_none f q' schedule).mpr hstep]
      | some next =>
          simp only [hstep] at h
          obtain ⟨q₁, hfirst, hrest⟩ := follows_append.mp h
          simp only [runFor, hstep, step?_rehost f q schedule hstep hfirst,
            Schedule.extend_append]
          exact ih next _ hrest

/-- A run is the same in another iteration whose strategy follows its dialogue. -/
theorem runFor_start_rehost (p : Program β) (n : Nat) (c : Configuration) (i j : Nat) {a : σ}
    {q q' : τ} (h : Follows q (runSaid p n (start p (.new i c a))) q') :
    runFor p n (start p (.new j c q)) =
      (runFor p n (start p (.new i c a))).rehost (Equiv.swap i j) q'
        (Schedule.extend #[] (runSaid p n (start p (.new i c a)))) := by
  have hnew : (Scheduler.new i c a).rehost (Equiv.swap i j) q #[] = .new j c q := by
    simp [Scheduler.new, Scheduler.rehost]
  have hrun := runFor_rehost p n (start p (.new i c a)) (Equiv.swap i j) #[] h
  rwa [start_rehost, hnew] at hrun

/-- The schedule of a run is what its dialogue logs. -/
theorem schedule_runFor (p : Program β) (n : Nat) (m : Machine σ β) :
    (runFor p n m).scheduler.schedule = m.scheduler.schedule.extend (runSaid p n m) := by
  have h := runFor_rehost p n m (Equiv.refl Nat) m.scheduler.schedule (follows_run p n m)
  rw [rehost_self] at h
  rw [h]
  rfl

/-- Whatever a step keeps, with its dialogue appended to that of the run, holds of every run. -/
theorem runFor_induction {p : Program β} {P : List Exchange → Machine σ β → Prop}
    (step : ∀ l m m', P l m → step? p m = some m' → P (l ++ stepSaid p m) m')
    (n : Nat) {l : List Exchange} {m : Machine σ β} (h : P l m) :
    P (l ++ runSaid p n m) (runFor p n m) := by
  induction n generalizing l m with
  | zero => simpa [runSaid, runFor] using h
  | succ n ih =>
      unfold runSaid runFor
      cases hstep : step? p m with
      | none => simpa using h
      | some next =>
          rw [← List.append_assoc]
          exact ih (step l m next h hstep)

end Machine

/-- What a strategy hears in a run of at most the given number of steps. -/
def Program.heard [Strategy σ] (p : Program β) (n : Nat) (s : Scheduler σ) : List Exchange :=
  (Machine.runFor p n
    (.start p (s.rehost (Equiv.refl Nat) (Transcript.ofStrategy s.strategy) s.schedule)))
    |>.scheduler.strategy.heard

/-- What is heard in a run is its dialogue, up to the questions about bound and fairness. -/
theorem Program.heard_eq [Strategy σ] (p : Program β) (n : Nat) (s : Scheduler σ) :
    p.heard n s = (Machine.runSaid p n (.start p s)).filter Exchange.isHeard := by
  have hfollow := Machine.follows_run p n (.start p s)
  have hstrategy : (Machine.start p s).scheduler.strategy = s.strategy :=
    Scheduler.strategy_create s .harness "harness"
  rw [hstrategy] at hfollow
  have hlisten := follows_transcript hfollow []
  unfold heard Transcript.ofStrategy
  rw [← Machine.start_rehost, Machine.runFor_rehost p n _ _ _ hlisten]
  rfl

end Interleave
