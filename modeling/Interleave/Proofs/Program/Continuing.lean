import Interleave.Proofs.EventTree.Growth
import Interleave.Proofs.Program.RunTurns
import Mathlib.Logic.Function.Basic

/-!
# How the steps of a run go on

A run may be interleaved in any way: at each step any thread that is ready may take it
(`Machine.Reaches`), the first one in particular, as in `Machine.runFor`. A step that does not stop
the run is one of four things (`Machine.Continues`): a thread that starts registers and waits for
its turn, or the thread in control rests, that is, goes on by itself or gives control away, chooses
a value, or performs the action that it has declared. `Machine.Performs` says what this changes
about threads and inboxes, and how it is announced. What these ways keep is an invariant of all
interleavings, up to the step that stops the run.
-/

namespace Interleave

open Function (update)

variable {σ β : Type}

namespace Status

/-- Whether the thread has announced its start. -/
def hasBegun : Status β → Bool
  | .starting _ => false
  | .parked (.start _) => false
  | _ => true

/-- Whether the thread waits for the handler of an operation it has created. -/
def awaits : Status β → Bool
  | .awaiting _ _ => true
  | _ => false

end Status

namespace Machine

theorem OwnThreads.status?_eq_update {m m' : Machine σ β} (h : m.OwnThreads) {thread : Thread β}
    (hthread : thread ∈ m.threads) {status : Status β}
    (hthreads : m'.threads = (m.setStatus thread.token status).threads) :
    m'.status? = update m.status? thread.token.operation (some status) := by
  funext x
  rw [Function.update_apply, ← h.status?_setStatus hthread]
  simp only [status?, hthreads]

/-- The operation in control performs what is pending, with the exchange that tells of it. -/
inductive Performs (m : Machine σ β) (a : OperationId) :
    Pending β → Exchange → Machine σ β → Prop
  | starts {body : β} {m' : Machine σ β} (child : a ≠ .harness)
      (statuses : m'.status? = update m.status? a (some (.running body)))
      (inbox : m'.inbox = m.inbox) (nextMessage : m'.nextMessage = m.nextMessage) :
      Performs m a (.start body) (.notice (.started a none)) m'
  | creates {id : OperationId} {name : String} {child : β} {next : OperationId → β}
      {m' : Machine σ β} (other : id ≠ a) (fresh : m.status? id = none)
      (statuses : m'.status? = update (update m.status? a (some (.awaiting id (next id)))) id
        (some (.starting child)))
      (inbox : m'.inbox = m.inbox) (nextMessage : m'.nextMessage = m.nextMessage) :
      Performs m a (.create id name child next) (.notice (.created a id)) m'
  | delivers {target : OperationId} {message : Message} {next : β} {m' : Machine σ β}
      (numbered : message.id = ⟨m.nextMessage⟩)
      (statuses : m'.status? = update m.status? a (some (.running next)))
      (inbox : m'.inbox = update m.inbox target (m.inbox target ++ [message]))
      (nextMessage : m'.nextMessage = m.nextMessage + 1) (sender : message.sender = a) :
      Performs m a (.send target message.name message.value next)
        (.send a target message.event .deliver) m'
  | withholds {target : OperationId} {message : Message} {next : β} {m' : Machine σ β}
      (numbered : message.id = ⟨m.nextMessage⟩)
      (statuses : m'.status? = update m.status? a (some (.running next)))
      (inbox : m'.inbox = m.inbox) (nextMessage : m'.nextMessage = m.nextMessage + 1)
      (sender : message.sender = a) :
      Performs m a (.send target message.name message.value next)
        (.send a target message.event .withhold) m'
  | receives {message : Message} {rest : List Message} {again : β} {next : Message → β}
      {m' : Machine σ β} (waiting : m.inbox a = message :: rest)
      (statuses : m'.status? = update m.status? a (some (.running (next message))))
      (inbox : m'.inbox = update m.inbox a rest) (nextMessage : m'.nextMessage = m.nextMessage) :
      Performs m a (.receive again next) (.notice (.received a message.event)) m'

theorem setStatus_of_status {m : Machine σ β} (hthreads : m.OwnThreads) {thread : Thread β}
    (hthread : thread ∈ m.threads) : m.setStatus thread.token thread.status = m := by
  have hkept : (m.setStatus thread.token thread.status).threads = m.threads := by
    refine (List.map_congr_left fun other hother => ?_).trans (List.map_id _)
    split
    · rename_i htoken
      have hsame := hthreads.status?_eq hother
      rw [htoken, hthreads.status?_eq hthread] at hsame
      rw [Option.some.inj hsame]
      rfl
    · rfl
  unfold setStatus at hkept ⊢
  dsimp only at hkept
  rw [hkept]

/-- A thread that comes to a scheduling point has begun, and so has what it declares there. -/
theorem hasBegun_of_approach {m m₁ : Machine σ β} {t : Token} {body : β} {action : Action β}
    {pending : Pending β} (h : m.approach t body action = some (m₁, pending)) :
    (Status.parked pending).hasBegun = true := by
  cases action with
  | finish | create _ _ _ | send _ _ _ _ | receive _ =>
      cases h
      rfl
  | _ => cases h

variable [Strategy σ]

/-- The machine is reached from another one by the given number of steps, each of them taken by any
thread that is ready. -/
inductive Reaches (p : Program β) : Nat → Machine σ β → Machine σ β → Prop
  | refl (m : Machine σ β) : Reaches p 0 m m
  | step {n : Nat} {m m' m'' : Machine σ β} {thread : Thread β} (reaches : Reaches p n m m')
      (mem : thread ∈ m'.threads) (step : stepThread p m' thread = some m'') :
      Reaches p (n + 1) m m''

/-- A run in which always the first thread that is ready takes the step. -/
theorem exists_reaches_runFor (p : Program β) (n : Nat) (m : Machine σ β) :
    ∃ k ≤ n, Reaches p k m (runFor p n m) := by
  induction n with
  | zero => exact ⟨0, Nat.le_refl 0, .refl m⟩
  | succ n ih =>
      obtain ⟨k, hk, hreaches⟩ := ih
      rw [runFor_add]
      cases hstep : step? p (runFor p n m) with
      | none =>
          rw [runFor_of_ended hstep]
          exact ⟨k, Nat.le_succ_of_le hk, hreaches⟩
      | some m' =>
          obtain ⟨before, thread, after, hthreads, hthread, -, -⟩ := exists_thread_of_step? hstep
          rw [runFor_succ_of_step hstep]
          exact ⟨k + 1, Nat.succ_le_succ hk, hreaches.step (by rw [hthreads]; simp) hthread⟩

/-- A short run comes to an end before the identities run out. -/
theorem exists_reaches_lt (p : Program β) {n : Nat} (m : Machine σ β)
    (hn : n + 1 < UInt64.size) : ∃ k, Reaches p k m (runFor p n m) ∧ k + 1 < UInt64.size := by
  obtain ⟨k, hk, hreaches⟩ := exists_reaches_runFor p n m
  exact ⟨k, hreaches, Nat.lt_of_le_of_lt (Nat.succ_le_succ hk) hn⟩

/-- A number of steps takes at most as many identities. -/
theorem Reaches.nextOperation {p : Program β} {n : Nat} {m m' : Machine σ β}
    (h : Reaches p n m m') : m'.nextOperation.toNat ≤ m.nextOperation.toNat + n := by
  induction h with
  | refl => exact Nat.le_refl _
  | step _ _ hstep ih =>
      have := nextOperation_stepThread hstep
      omega

/-- How a step of a thread goes on while `a` is in control, with the dialogue of the step. -/
inductive Continues (m : Machine σ β) (a : OperationId) (thread : Thread β) :
    List Exchange → Machine σ β → Prop
  /-- A thread that starts registers and waits for its turn. -/
  | registers {body : β} (starting : thread.status = .starting body)
      (other : thread.token.operation ≠ a) :
      Continues m a thread []
        ((m.withScheduler (·.updateSlot thread.token.operation
          fun slot => { slot with handlerRunning := true })).setStatus thread.token
            (.parked (.start body)))
  /-- The thread in control goes on by itself or gives control away. -/
  | rests {l : List Exchange} {m' : Machine σ β} {status : Status β}
      (held : thread.token.operation = a) (silent : ∀ e ∈ l, e.deed? = none)
      (statuses : m'.status? = update m.status? a (some status)) (inbox : m'.inbox = m.inbox)
      (nextMessage : m'.nextMessage = m.nextMessage)
      (begun : thread.status.hasBegun = true ∨ a = .harness) (begins : status.hasBegun = true)
      (free : status.awaits = false) : Continues m a thread l m'
  /-- The thread in control chooses a value. -/
  | chooses {l : List Exchange} {choice : Choice} {m' : Machine σ β} {body : β}
      (held : thread.token.operation = a) (silent : ∀ e ∈ l, e.deed? = none)
      (statuses : m'.status? = update m.status? a (some (.running body)))
      (inbox : m'.inbox = m.inbox) (nextMessage : m'.nextMessage = m.nextMessage)
      (begun : thread.status.hasBegun = true) :
      Continues m a thread (l ++ [.notice (.chosen a choice)]) m'
  /-- The thread in control performs what it has declared. -/
  | performs {l : List Exchange} {e : Exchange} {m₀ m' : Machine σ β} {pending : Pending β}
      (held : thread.token.operation = a) (silent : ∀ e ∈ l, e.deed? = none)
      (statuses : m₀.status? = update m.status? a (some (.parked pending)))
      (inbox : m₀.inbox = m.inbox) (nextMessage : m₀.nextMessage = m.nextMessage)
      (begun : (Status.parked pending).hasBegun = thread.status.hasBegun)
      (performs : m₀.Performs a pending e m') : Continues m a thread (l ++ [e]) m'

/-- The operation in control creates the operation that it has declared. -/
theorem InControl.performs_create {m : Machine σ β} {thread : Thread β}
    (h : m.InControl thread.token.operation) (hthread : thread ∈ m.threads) {id : OperationId}
    {name : String} {child : β} {next : OperationId → β}
    (hstatus : thread.status = .parked (.create id name child next)) :
    m.Performs thread.token.operation (.create id name child next)
      (.notice (.created thread.token.operation id))
      (m.performCreate thread.token id name child (next id)) := by
  have hcreates : m.Creates thread.token.operation id :=
    ⟨_, h.threads.status?_eq hthread, by rw [hstatus]; rfl⟩
  obtain ⟨hfresh, -⟩ := h.numbering.fresh _ id hcreates
  have hne := h.ne_of_fresh hfresh
  have hnone := h.status?_eq_none hfresh
  let m₁ := m.setStatus thread.token (.awaiting id (next id))
  have hwaits : m₁.status? =
      update m.status? thread.token.operation (some (.awaiting id (next id))) :=
    h.threads.status?_eq_update hthread rfl
  have hnone₁ : m₁.status? id = none := by
    rw [hwaits, Function.update_of_ne (Ne.symm hne)]
    exact hnone
  have hspawned : (m₁.spawn id name child).status? =
      update m₁.status? id (some (.starting child)) := by
    funext x
    rw [status?_spawn hnone₁ hfresh, Function.update_apply]
  rw [hwaits] at hspawned
  rw [performCreate_eq hfresh hne]
  exact .creates (Ne.symm hne) hnone hspawned rfl rfl

/-- The operation in control sends the next message. -/
theorem InControl.performs_send {m : Machine σ β} {thread : Thread β}
    (h : m.InControl thread.token.operation) (hthread : thread ∈ m.threads) (target : OperationId)
    (name : String) (value : UInt64) (next : β) :
    ∃ e, m.performSaid thread.token (.send target name value next) = [e] ∧
      m.Performs thread.token.operation (.send target name value next) e
        (m.performSend thread.token target name value next) := by
  let message : Message := ⟨⟨m.nextMessage⟩, thread.token.operation, name, value⟩
  have hnumbered : message.id = ⟨m.nextMessage⟩ := rfl
  have hset : ∀ {m' : Machine σ β},
      m'.threads = (m.setStatus thread.token (.running next)).threads →
      m'.status? = update m.status? thread.token.operation (some (.running next)) :=
    h.threads.status?_eq_update hthread
  have hsends : m.performSaid thread.token (.send target name value next) =
      [.send thread.token.operation target message.event
        (m.scheduler.send thread.token.operation target message.event).1] := by
    rw [Scheduler.send_of_running h.running]
    exact Scheduler.sendSaid_of_running h.running _ _ _
  rw [hsends]
  refine ⟨_, rfl, ?_⟩
  unfold performSend
  dsimp only
  split
  · rename_i hdelivery
    rw [show (m.scheduler.send thread.token.operation target message.event).1 = .deliver from
      hdelivery]
    refine .delivers hnumbered (hset rfl) ?_ rfl rfl
    funext x
    rw [Function.update_apply]
    exact inbox_setInbox m target x (m.inbox target ++ [message])
  · rename_i hdelivery
    rw [show (m.scheduler.send thread.token.operation target message.event).1 = .withhold from
      hdelivery]
    exact .withholds hnumbered (hset rfl) rfl rfl rfl

/-- What the operation in control performs once it is its turn. -/
theorem At.performs {m : Machine σ β} {a : OperationId} {next : Declared}
    (h : m.At (.granted a next)) {thread : Thread β} (hthread : thread ∈ m.threads)
    (hop : thread.token.operation = a) {pending : Pending β}
    (hstatus : thread.status = .parked pending) :
    ∃ e, m.performSaid thread.token pending = [e] ∧
      m.Performs a pending e (m.perform thread.token pending) := by
  subst hop
  obtain ⟨slot, -, -, hst⟩ := h.exists_slot hthread rfl
  have hposture := hst.posture
  rw [hstatus] at hposture
  have hnotice := Scheduler.noticeSaid_of_running h.1.running
  have hset : ∀ {m' : Machine σ β} {status : Status β},
      m'.threads = (m.setStatus thread.token status).threads →
      m'.status? = update m.status? thread.token.operation (some status) :=
    h.1.threads.status?_eq_update hthread
  cases pending with
  | start body =>
      have hchild := hposture.2
      simp only [performSaid, Machine.perform, if_neg hchild, hnotice]
      exact ⟨_, rfl, .starts hchild (hset rfl) rfl rfl⟩
  | create id name child cont =>
      simp only [performSaid, hnotice]
      exact ⟨_, rfl, h.1.performs_create hthread hstatus⟩
  | send target name value cont => exact h.1.performs_send hthread target name value cont
  | receive again cont =>
      obtain ⟨message, rest, hmessages, -⟩ := h.receive hthread rfl hstatus
      simp only [performSaid, Machine.perform, performReceive, hmessages, hnotice]
      refine ⟨_, rfl, .receives hmessages (hset rfl) ?_ rfl⟩
      funext x
      rw [Function.update_apply]
      exact inbox_setInbox m thread.token.operation x rest
  | stop => exact hposture.elim

/-- A thread that is granted its pending action, in a machine in which it may have come to a
scheduling point first. -/
theorem At.continues_performs {m m₀ : Machine σ β} {a : OperationId} {thread : Thread β}
    (hown : m.OwnThreads) (hthread : thread ∈ m.threads) (held : thread.token.operation = a)
    {l : List Exchange} (silent : ∀ e ∈ l, e.deed? = none) (hthreads : m₀.threads = m.threads)
    (hinbox : m₀.inbox = m.inbox) (hnext : m₀.nextMessage = m.nextMessage)
    {pending : Pending β}
    (hbegun : (Status.parked pending).hasBegun = thread.status.hasBegun) {next : Declared}
    (h : (m₀.setStatus thread.token (.parked pending)).At (.granted a next)) :
    m.Continues a thread (l ++ m₀.performSaid thread.token pending)
      (m₀.perform thread.token pending) := by
  let m₂ := m₀.setStatus thread.token (.parked pending)
  have hmem : ⟨thread.token, .parked pending⟩ ∈ m₂.threads :=
    List.mem_map.mpr ⟨thread, hthreads ▸ hthread, if_pos rfl⟩
  obtain ⟨e, hsaid, hperforms⟩ := h.performs hmem held rfl
  have hstatuses : m₂.status? = update m.status? thread.token.operation (some (.parked pending)) :=
    hown.status?_eq_update hthread (congrArg (List.map _) hthreads)
  rw [held] at hstatuses
  have hsaid₀ : m₀.performSaid thread.token pending = [e] := by
    cases pending <;> exact hsaid
  rw [perform_setStatus] at hperforms
  rw [hsaid₀]
  exact .performs held silent hstatuses hinbox hnext hbegun hperforms

/-- A thread that starts. -/
theorem At.continues_start {m : Machine σ β} {turn : Turn} (h : m.At turn) {a : OperationId}
    (hcontrol : m.InControl a) {thread : Thread β} (hthread : thread ∈ m.threads) {body : β}
    (hstatus : thread.status = .starting body) :
    m.Continues a thread
      (m.suspendSaid thread.token (.start body) (m.scheduler.start thread.token))
      (m.suspend thread.token (.start body) (m.scheduler.start thread.token)) := by
  let start : Slot → Slot := fun slot => { slot with handlerRunning := true }
  let m₁ := m.withScheduler (·.updateSlot thread.token.operation start)
  rw [hcontrol.reply_start hthread hstatus]
  by_cases hop : thread.token.operation = a
  · rw [if_pos hop]
    show m.Continues a thread ([] ++ m₁.performSaid thread.token (.start body))
      (m₁.perform thread.token (.start body))
    by_cases hharness : thread.token.operation = .harness
    · -- the start of the harness is not announced
      have hsaid : m₁.performSaid thread.token (.start body) = [] := if_pos hharness
      have hperform : m₁.perform thread.token (.start body) =
          m₁.setStatus thread.token (.running body) := if_pos hharness
      have hstatuses : (m₁.setStatus thread.token (.running body)).status? =
          update m.status? a (some (.running body)) :=
        hop ▸ hcontrol.threads.status?_eq_update hthread rfl
      rw [hsaid, hperform]
      exact .rests hop (by simp) hstatuses rfl rfl (Or.inr (hop.symm.trans hharness)) rfl rfl
    · obtain ⟨next, -, hat⟩ := h.register hcontrol hthread hstatus hop hharness
      have hthreads : m₁.threads = m.threads := rfl
      exact At.continues_performs hcontrol.threads hthread hop (by simp) hthreads rfl rfl
        (by rw [hstatus]; rfl) hat
  · rw [if_neg hop]
    exact .registers hstatus hop

/-- A thread that has come to a scheduling point, once control is handed over there: it performs at
once what it has declared or gives control away. -/
theorem InControl.continues_handOver {m m₁ : Machine σ β} {s₁ : Scheduler σ} {a : OperationId}
    (h : m.InControl a) {thread : Thread β} (hthread : thread ∈ m.threads)
    (held : thread.token.operation = a) (hstarted : thread.status.hasBegun = true)
    {pending : Pending β} (hbegun : (Status.parked pending).hasBegun = true)
    (hthreads : m₁.threads = m.threads) (hinbox : m₁.inbox = m.inbox)
    (hnext : m₁.nextMessage = m.nextMessage)
    (hpoised : ({ m₁ with scheduler := s₁ }.setStatus thread.token pending.rest).InControl a)
    {slot : Slot} (hslot : s₁.slot? slot.id = some slot) (henabled : slot.enabled = true)
    {l : List Exchange} (hsilent : ∀ e ∈ l, e.deed? = none) :
    m.Continues a thread
      (l ++ m₁.suspendSaid thread.token pending (s₁.handOver thread.token.operation slot.id))
      (m₁.suspend thread.token pending (s₁.handOver thread.token.operation slot.id)) := by
  subst held
  let m₀ : Machine σ β := { m₁ with scheduler := s₁ }
  have hkept : m₀.threads = m.threads := hthreads
  have hmem : ⟨thread.token, pending.rest⟩ ∈ (m₀.setStatus thread.token pending.rest).threads :=
    List.mem_map.mpr ⟨thread, hkept ▸ hthread, if_pos rfl⟩
  rcases hpoised.suspend_handOver hmem hslot henabled with ⟨-, hparked, hover, hat⟩ |
    ⟨hsaid, hresult, -⟩
  · -- the operation keeps control and performs at once
    rw [hparked] at hat
    rw [hover]
    exact At.continues_performs h.threads hthread rfl hsilent hkept hinbox hnext
      (hbegun.trans hstarted.symm) hat
  · rw [hsaid, hresult, List.append_nil]
    have hrest : pending.rest.hasBegun = true ∧ pending.rest.awaits = false := by
      rcases rest_cases pending with ⟨-, hexited⟩ | ⟨hparked, -⟩
      · rw [hexited]
        exact ⟨rfl, rfl⟩
      · rw [hparked]
        exact ⟨hbegun, rfl⟩
    exact .rests rfl hsilent
      (h.threads.status?_eq_update hthread (congrArg (List.map _) hthreads)) hinbox hnext
      (Or.inl hstarted) hrest.1 hrest.2

/-- The thread in control comes to a scheduling point. -/
theorem InControl.continues_arrive {m m₁ : Machine σ β} {a : OperationId} (h : m.InControl a)
    {thread : Thread β} (hthread : thread ∈ m.threads) {body : β}
    (hstatus : thread.status = .running body) {action : Action β} {pending : Pending β}
    (happ : m.approach thread.token body action = some (m₁, pending))
    (hwrap : m.nextOperation.toNat + 1 < UInt64.size)
    (hrun : (m₁.arrive thread.token pending).scheduler.running = true) :
    m.Continues a thread (m₁.arriveSaid thread.token pending)
      (m₁.arrive thread.token pending) := by
  have hop := h.running_eq hthread hstatus
  have hpoised := h.poise hthread hstatus happ hwrap
  have hmem : ⟨thread.token, pending.rest⟩ ∈ (m₁.poised thread.token pending).threads :=
    List.mem_map.mpr ⟨thread, threads_approach happ ▸ hthread, if_pos rfl⟩
  have hrunning : m₁.scheduler.running = true := hpoised.running
  have hyields := yields_declare hrunning (hpoised.misuse?_poised hmem hop) pending
  have hinbox : m₁.inbox = m.inbox := funext (inbox_approach happ)
  have hnext := (steady_approach happ).nextMessage
  rw [arriveSaid_eq]
  rw [arrive_eq] at hrun ⊢
  generalize m₁.scheduler.yieldSaid thread.token (pending.declared thread.token.operation) = l
    at hyields ⊢
  generalize m₁.declare thread.token pending = r at hyields hrun ⊢
  have hstopped : ∀ {s s' : Scheduler σ}, s.Stopped s' →
      (m₁.suspend thread.token pending (.canceled, s')).scheduler.running = true → False := by
    intro s s' hstops hgoes
    have hover : s'.running = true := hgoes
    rw [hstops.running] at hover
    cases hover
  -- of all that can come of a yield only a grant lets the run go on
  cases hyields with
  | cut => exact (hstopped (Scheduler.stopped_cutOff m₁.scheduler) hrun).elim
  | failed => exact (hstopped (Scheduler.stopped_abort _ _) hrun).elim
  | declined => exact (hstopped (Scheduler.stopped_exhaust _ _) hrun).elim
  | overheated => exact (hstopped (Scheduler.stopped_fail _ _ _) hrun).elim
  | @granted s₁ op fair hdeclares hmemop henabled =>
      have hpoised₁ :
          ({ m₁ with scheduler := s₁ }.setStatus thread.token pending.rest).InControl a :=
        hpoised.same ⟨rfl, rfl, rfl, hdeclares.id, hdeclares.slots, hdeclares.scheduled,
          hdeclares.running, hdeclares.bug, hdeclares.error⟩
      have hsilent : ∀ e ∈ ([.bound false,
          .operation s₁.snapshots thread.token.operation (.ok (some op.id)),
          .logged (.schedule op.id), .fairness fair] : List Exchange), e.deed? = none := by
        simp [Exchange.deed?]
      obtain ⟨slot, hmemslot, rfl⟩ := List.mem_map.mp hmemop
      have hslot : s₁.slot? slot.id = some slot := Scheduler.slot?_of_mem hpoised₁.slots hmemslot
      exact h.continues_handOver hthread hop (by rw [hstatus]; rfl) (hasBegun_of_approach happ)
        (threads_approach happ) hinbox hnext hpoised₁ hslot henabled hsilent

/-- The thread in control asks for a value. -/
theorem InControl.continues_choose {m : Machine σ β} {a : OperationId} (h : m.InControl a)
    {thread : Thread β} (hthread : thread ∈ m.threads) {body : β}
    (hstatus : thread.status = .running body) {α : Type} {exchange : Answer α → Exchange}
    {toChoice : α → Choice} {l : List Exchange} {r : Option α × Scheduler σ}
    (hdecides : m.scheduler.Decides thread.token.operation exchange toChoice l r)
    (hsilent : ∀ answer, (exchange answer).deed? = none) (next : α → β)
    (hrun : (m.continueWith thread.token next r).scheduler.running = true) :
    m.Continues a thread l (m.continueWith thread.token next r) := by
  have hop := h.running_eq hthread hstatus
  rw [scheduler_continueWith] at hrun
  have hstopped : ∀ {s s' : Scheduler σ}, s.Stopped s' → s'.running = true → False := by
    intro s s' hstops hgoes
    rw [hstops.running] at hgoes
    cases hgoes
  cases hdecides with
  | cut => exact (hstopped (Scheduler.stopped_cutOff m.scheduler) hrun).elim
  | failed => exact (hstopped (Scheduler.stopped_abort _ _) hrun).elim
  | undecided => exact (hstopped (Scheduler.stopped_explored _) hrun).elim
  | @decided s₁ value d hsame hlegal =>
      rw [hop]
      have hchooses : m.Continues a thread
          ([.bound false, exchange (.ok (some value)), .logged d] ++
            [.notice (.chosen a (toChoice value))])
          ({ m with scheduler := s₁ }.setStatus thread.token (.running (next value))) :=
        .chooses hop (by
          simp only [List.forall_mem_cons, hsilent]
          simp [Exchange.deed?]) (hop ▸ h.threads.status?_eq_update hthread rfl) rfl rfl
          (by rw [hstatus]; rfl)
      exact hchooses

/-- The thread in control takes one action. -/
theorem InControl.continues_execute {p : Program β} {m : Machine σ β} {a : OperationId}
    (h : m.InControl a) {thread : Thread β} (hthread : thread ∈ m.threads) {body : β}
    (hstatus : thread.status = .running body) (hwrap : m.nextOperation.toNat + 1 < UInt64.size)
    (hrun : (m.execute thread.token body
      (p.act thread.token.operation body)).scheduler.running = true) :
    let action := p.act thread.token.operation body
    m.Continues a thread (m.executeSaid thread.token body action)
      (m.execute thread.token body action) := by
  intro action
  have hop := h.running_eq hthread hstatus
  have hbegun : thread.status.hasBegun = true := by rw [hstatus]; rfl
  have hproper : m.scheduler.misuse? thread.token = none := by
    obtain ⟨slot, hslot, -⟩ := h.standing_of_mem hthread
    refine Scheduler.misuse?_eq_none (h.threads.own _ hthread) ?_ (hop ▸ h.scheduled)
    rw [hslot]
    exact Option.some_ne_none slot
  have hrests : ∀ {l : List Exchange} {m' : Machine σ β} {next : β},
      (∀ e ∈ l, e.deed? = none) →
      m'.threads = (m.setStatus thread.token (.running next)).threads →
      m'.inbox = m.inbox → m'.nextMessage = m.nextMessage → m.Continues a thread l m' :=
    fun hsilent hthreads hinbox hnext =>
      .rests hop hsilent (hop ▸ h.threads.status?_eq_update hthread hthreads) hinbox hnext
        (Or.inl hbegun) rfl rfl
  have hrun : (m.execute thread.token body action).scheduler.running = true := hrun
  have hact := ActionStep.of_execute m thread.token body action
  clear_value action
  generalize m.executeSaid thread.token body action = l,
    m.execute thread.token body action = m' at hact hrun ⊢
  cases hact with
  | arrives happ => exact h.continues_arrive hthread hstatus happ hwrap hrun
  | flips fairness next =>
      exact h.continues_choose hthread hstatus
        (Scheduler.decides_nextBoolean h.running hproper 2 fairness) (fun _ => rfl) next hrun
  | rolls max next =>
      exact h.continues_choose hthread hstatus
        (Scheduler.decides_nextInteger h.running hproper max) (fun _ => rfl) next hrun
  | tells name hot next =>
      refine hrests ?_ rfl rfl rfl
      simp only [Scheduler.noticeSaid_of_running h.running]
      simp [Exchange.deed?]
  | logs _ _ | hides _ => exact hrests (by simp) rfl rfl rfl
  | fails _ | reports _ _ =>
      -- a failure ends the run
      cases hrun

/-- Every step of a thread either goes on in one of the four ways or stops the run. -/
theorem At.continues {p : Program β} {m m' : Machine σ β} {turn : Turn} (h : m.At turn)
    {a : OperationId} (hcontrol : m.InControl a)
    (hwrap : m.nextOperation.toNat + 1 < UInt64.size) {thread : Thread β}
    (hthread : thread ∈ m.threads) (hstep : stepThread p m thread = some m')
    (hrun : m'.scheduler.running = true) : m.Continues a thread (threadSaid p m thread) m' := by
  have hstep := ThreadStep.of_stepThread hstep
  generalize threadSaid p m thread = l at hstep ⊢
  cases hstep with
  | starts t body => exact h.continues_start hcontrol hthread rfl
  | acts t body => exact hcontrol.continues_execute hthread rfl hwrap hrun
  | @performs t pending wake =>
      rcases h.wake_parked hcontrol hthread rfl with ⟨hop, ⟨next, rfl⟩, -⟩ | hparked
      · have hat : (m.setStatus t (.parked pending)).At (.granted a next) := by
          rw [setStatus_of_status hcontrol.threads hthread]
          exact h
        exact At.continues_performs (l := []) hcontrol.threads hthread hop (by simp) rfl rfl rfl
          rfl hat
      · rw [hparked] at wake
        cases wake
  | @cancels t pending wake =>
      -- a run that goes on cancels nobody
      rcases h.wake_parked hcontrol hthread rfl with ⟨-, -, hwake⟩ | hparked
      · rw [hwake] at wake
        cases wake
      · rw [hparked] at wake
        cases wake
  | @resumes t child next ready =>
      obtain ⟨slot, -, hst⟩ := hcontrol.standing_of_mem hthread
      have hop : t.operation = a := hst.posture
      exact .rests hop (by simp) (hop ▸ hcontrol.threads.status?_eq_update hthread rfl) rfl rfl
        (Or.inl rfl) rfl rfl

end Machine

end Interleave
