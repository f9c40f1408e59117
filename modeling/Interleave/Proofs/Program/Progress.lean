import Interleave.Proofs.Program.Continuing
import Interleave.Proofs.Program.LockStep

/-!
# Runs make progress

A thread can take a step unless it is parked on a slot that is not active, waits for a handler that
has neither started nor been killed, or has exited (`Machine.canStep_iff`). Every state of a run is
of one of three kinds (`Machine.Lively`): the operations take turns, and whoever waits for a handler
waits for one that is to start or has started (`Machine.Tended`); or a failure has been reported and
its operation goes on by itself; or all slots are killed. In each of them some thread can take a
step unless all have exited, and steps lead from one to another (`Machine.Lively.stepThread`), so
that no interleaving gets stuck (`Program.never_stuck`).
-/

namespace Interleave

open Function (update)

variable {σ β : Type}

namespace Machine

/-- The thread is neither parked nor waiting, or it is parked on a slot that is active, or it waits
for a handler that has started or been killed. -/
def CanStep (m : Machine σ β) (thread : Thread β) : Prop :=
  match thread.status with
  | .starting _ | .running _ => True
  | .parked _ => ∃ slot, m.scheduler.slot? thread.token.operation = some slot ∧ slot.active = true
  | .awaiting child _ => ∃ slot, m.scheduler.slot? child = some slot ∧
      (slot.handlerRunning = true ∨ (slot.active = true ∧ slot.enabled = false))
  | .exited => False

/-- Every thread that waits for a handler waits for one that is to start or has started. -/
def Tended (m : Machine σ β) : Prop :=
  ∀ x child next, m.status? x = some (.awaiting child next) →
    (∃ body, m.status? child = some (.starting body)) ∨
      ∃ slot, m.scheduler.slot? child = some slot ∧ slot.handlerRunning = true

/-! ## Waiting for a handler -/

/-- Only the operation in control can wait for a handler. -/
theorem InControl.eq_of_awaiting {m : Machine σ β} {a x child : OperationId} {next : β}
    (h : m.InControl a) (hx : m.status? x = some (.awaiting child next)) : x = a := by
  rcases h.stands x with ⟨hnone, -, -⟩ | ⟨status, slot, hstatus, -, hst⟩
  · rw [hx] at hnone
    cases hnone
  · rw [hx, Option.some.injEq] at hstatus
    subst hstatus
    exact hst.posture

/-- If the thread in control does not wait for a handler, no thread does. -/
theorem InControl.tended {m m' : Machine σ β} {a : OperationId} (h : m.InControl a)
    {status : Status β} (hstatuses : m'.status? = update m.status? a (some status))
    (hfree : status.awaits = false) : m'.Tended := by
  intro x child next hx
  rw [hstatuses, Function.update_apply] at hx
  split at hx
  · obtain rfl := Option.some.inj hx
    cases hfree
  · rename_i hne
    exact absurd (h.eq_of_awaiting hx) hne

/-- A thread that registers is known to its creator from then on. -/
theorem Tended.register {m : Machine σ β} (h : m.Tended) {a : OperationId}
    (hcontrol : m.InControl a) {thread : Thread β} (hthread : thread ∈ m.threads) (body : β) :
    ((m.withScheduler (·.updateSlot thread.token.operation
      fun slot => { slot with handlerRunning := true })).setStatus thread.token
        (.parked (.start body))).Tended := by
  let start : Slot → Slot := fun slot => { slot with handlerRunning := true }
  intro x child next hx
  have hstatuses := hcontrol.threads.status?_setStatus hthread (.parked (.start body))
  have hslots := fun y => Scheduler.slot?_updateSlot m.scheduler thread.token.operation y
    (f := start) fun _ => rfl
  have hx : (m.setStatus thread.token (.parked (.start body))).status? x =
    some (.awaiting child next) := hx
  rw [hstatuses] at hx
  split at hx
  · cases hx
  · by_cases hchild : child = thread.token.operation
    · obtain ⟨slot, hslot, -⟩ := hcontrol.standing_of_mem hthread
      refine Or.inr ⟨start slot, (hslots child).trans ?_, rfl⟩
      rw [if_pos hchild, hchild, hslot]
      rfl
    · rcases h x child next hx with ⟨body', hstarting⟩ | ⟨slot, hslot, hrunning⟩
      · exact Or.inl ⟨body', (hstatuses child).trans ((if_neg hchild).trans hstarting)⟩
      · exact Or.inr ⟨slot, (hslots child).trans ((if_neg hchild).trans hslot), hrunning⟩

/-- Handlers stay tended in whatever way a step goes on. -/
theorem Continues.tended [Strategy σ] {m m' : Machine σ β} {a : OperationId} {thread : Thread β}
    {l : List Exchange} (h : m.Continues a thread l m') (hcontrol : m.InControl a)
    (hthread : thread ∈ m.threads) (htended : m.Tended) : m'.Tended := by
  cases h with
  | registers starting other => exact htended.register hcontrol hthread _
  | rests held silent statuses inbox nextMessage begun begins free =>
      exact hcontrol.tended statuses free
  | chooses held silent statuses inbox nextMessage begun => exact hcontrol.tended statuses rfl
  | @performs l e m₀ _ pending held silent before inbox nextMessage begun performs =>
      have hupdate : ∀ status : Status β, update m₀.status? a (some status) =
          update m.status? a (some status) := by
        intro status
        rw [before, Function.update_idem]
      cases performs with
      | starts child statuses => exact hcontrol.tended (statuses.trans (hupdate _)) rfl
      | delivers numbered statuses => exact hcontrol.tended (statuses.trans (hupdate _)) rfl
      | withholds numbered statuses => exact hcontrol.tended (statuses.trans (hupdate _)) rfl
      | receives waiting statuses => exact hcontrol.tended (statuses.trans (hupdate _)) rfl
      | creates other fresh statuses =>
          -- the creator waits for its child, which is to start
          intro x child next hx
          rw [statuses, hupdate, Function.update_apply] at hx
          split at hx
          · cases hx
          · rw [Function.update_apply] at hx
            split at hx
            · cases hx
              exact Or.inl ⟨_, by rw [statuses, Function.update_self]⟩
            · rename_i hne
              exact absurd (hcontrol.eq_of_awaiting hx) hne

/-! ## The states of a run -/

/-- What a state of a run can be. -/
inductive Lively (m : Machine σ β) : Prop
  /-- The operations take turns. -/
  | goesOn {turn : Turn} (turns : m.At turn) (tended : m.Tended) : Lively m
  /-- A failure has been reported. -/
  | lingers {a : OperationId} {text : String} (lingers : m.Lingers a)
      (bug : m.scheduler.bug = some ⟨.assertion, text⟩) : Lively m
  /-- All slots are killed. -/
  | halted (halted : m.Halted)
      (bug : ∀ bug ∈ m.scheduler.bug, bug.kind ≠ .uncontrolledSynchronization) : Lively m

/-- When all threads have exited the run is over. -/
theorem Lively.completed {m : Machine σ β} (h : m.Lively)
    (hexited : ∀ thread ∈ m.threads, thread.status = .exited) :
    m.scheduler.completed = true := by
  cases h with
  | @goesOn turn turns tended =>
      obtain ⟨a, hcontrol⟩ := turns.inControl
      obtain ⟨status, -, hstatus, -, -⟩ := hcontrol.stands_self
      obtain ⟨thread, hthread, -, rfl⟩ := exists_thread_of_status? hstatus
      rw [hexited thread hthread] at hstatus
      rcases turns.turn_cases hcontrol hstatus with ⟨-, hacts⟩ | ⟨_, -, -, -, hwaits⟩
      · exact hacts.elim
      · exact hwaits.elim
  | lingers lingers => exact lingers.completed
  | halted halted => exact halted.completed

/-- No state of a run has a bug of uncontrolled synchronization. -/
theorem Lively.bug {m : Machine σ β} (h : m.Lively) :
    ∀ bug ∈ m.scheduler.bug, bug.kind ≠ .uncontrolledSynchronization := by
  intro found hfound
  cases h with
  | goesOn turns =>
      obtain ⟨a, hcontrol⟩ := turns.inControl
      rw [hcontrol.bug] at hfound
      cases hfound
  | lingers _ bug =>
      rw [bug, Option.mem_some_iff] at hfound
      rw [← hfound]
      exact BugKind.noConfusion
  | halted _ bug => exact bug found hfound

/-- Where all slots are killed, a thread that has not exited can take a step. -/
theorem Halted.canStep {m : Machine σ β} (h : m.Halted) {thread : Thread β}
    (hthread : thread ∈ m.threads) (hne : thread.status ≠ .exited) : m.CanStep thread := by
  have hidle := h.idle thread hthread
  unfold CanStep
  cases hstatus : thread.status with
  | starting body => trivial
  | parked pending =>
      -- its slot has been activated to wake it up
      obtain ⟨slot, hslot⟩ := Option.ne_none_iff_exists'.mp (h.registered thread hthread)
      exact ⟨slot, hslot, (h.killed slot (Scheduler.mem_of_slot? hslot)).1⟩
  | exited => exact absurd hstatus hne
  | running body =>
      rw [hstatus] at hidle
      cases hidle
  | awaiting child next =>
      rw [hstatus] at hidle
      cases hidle

variable [Strategy σ]

/-- A thread takes a step if and only if it can. -/
theorem canStep_iff {p : Program β} {m : Machine σ β} {thread : Thread β} :
    m.CanStep thread ↔ (stepThread p m thread).isSome = true := by
  unfold CanStep stepThread
  cases thread.status with
  | starting body => simp
  | running body => simp
  | parked pending =>
      cases hslot : m.scheduler.slot? thread.token.operation with
      | none => simp [hslot]
      | some slot =>
          cases hactive : slot.active <;> cases henabled : slot.enabled <;>
            simp [hslot, Slot.wake, hactive, henabled]
  | awaiting child next =>
      cases hslot : m.scheduler.slot? child with
      | none => simp [hslot]
      | some slot => simp [hslot, Slot.handlerReady]
  | exited => simp

/-! ## Steps of a run -/

/-- What is left behind by a step that stops the run. -/
theorem Stops.lively {p : Program β} {m m' : Machine σ β} {thread : Thread β} {l : List Exchange}
    (h : Stops p m thread l m') : m'.Lively := by
  have hkind : ∀ kind : BugKind, kind ≠ .uncontrolledSynchronization →
      (∀ bug ∈ m'.scheduler.bug, bug.kind = kind) →
        ∀ bug ∈ m'.scheduler.bug, bug.kind ≠ .uncontrolledSynchronization :=
    fun kind hne hbug bug hmem => by rw [hbug bug hmem]; exact hne
  cases h with
  | @asserted _ text stopped bug left =>
      rcases left with halted | ⟨a, lingers⟩
      · refine .halted halted (hkind .assertion BugKind.noConfusion fun found hfound => ?_)
        rw [bug, Option.mem_some_iff] at hfound
        rw [← hfound]
      · exact .lingers lingers bug
  | failed halted bug => exact .halted halted (by simp [bug])
  | cut halted bug => exact .halted halted (hkind .stepBound BugKind.noConfusion bug)
  | declined halted bug =>
      refine .halted halted fun found hfound => ?_
      rcases (bug found hfound).1 with hfoundKind | ⟨monitor, hfoundKind⟩
      · rw [hfoundKind]
        exact BugKind.noConfusion
      · rw [hfoundKind]
        exact BugKind.noConfusion
  | undecided halted bug => exact .halted halted (by simp [bug])
  | overheated overheats halted bug =>
      obtain ⟨monitor, hmonitor⟩ := bug
      refine .halted halted (hkind (.liveness monitor) BugKind.noConfusion
        fun found hfound => ?_)
      rw [hmonitor, Option.mem_some_iff] at hfound
      rw [← hfound]

/-- Every step leads to another state of a run. -/
theorem Lively.stepThread {p : Program β} {m m' : Machine σ β} (h : m.Lively)
    (hwrap : m.nextOperation.toNat + 1 < UInt64.size) {thread : Thread β}
    (hthread : thread ∈ m.threads) (hstep : stepThread p m thread = some m') : m'.Lively := by
  cases h with
  | goesOn turns tended =>
      obtain ⟨a, hcontrol⟩ := turns.inControl
      rcases at_stepThread turns hwrap hthread hstep with ⟨turn', -, turns'⟩ | ⟨-, hstops⟩
      · obtain ⟨b, hcontrol'⟩ := turns'.inControl
        have hcontinues := turns.continues hcontrol hwrap hthread hstep hcontrol'.running
        exact .goesOn turns' (hcontinues.tended hcontrol hthread tended)
      · exact hstops.lively
  | @lingers a text lingers bug =>
      have hbug := (makes_stepThread hstep).passage.bug _ bug
      rcases lingers.stepThread hthread hstep with lingers' | halted
      · exact .lingers lingers' hbug
      · refine .halted halted fun found hfound => ?_
        rw [hbug, Option.mem_some_iff] at hfound
        rw [← hfound]
        exact BugKind.noConfusion
  | halted halted bug =>
      obtain ⟨halted', slots, hslots⟩ := halted.stepThread hthread hstep
      exact .halted halted' (by rw [hslots]; exact bug)

/-- Every state that is reached by any interleaving is one of a run. -/
theorem Reaches.lively {p : Program β} {n : Nat} {m m' : Machine σ β} (h : Reaches p n m m')
    (hwrap : m.nextOperation.toNat + n < UInt64.size) (hm : m.Lively) : m'.Lively := by
  induction h with
  | refl => exact hm
  | step reaches mem hstep ih =>
      have hnext := reaches.nextOperation
      exact (ih (by omega) hm).stepThread (by omega) mem hstep

/-- Where the operations take turns some thread can take a step. -/
theorem At.exists_canStep (p : Program β) {m : Machine σ β} {turn : Turn} (h : m.At turn)
    (htended : m.Tended) : ∃ thread ∈ m.threads, m.CanStep thread := by
  cases turn with
  | holds a =>
      obtain ⟨-, status, hstatus, hacts⟩ := h
      obtain ⟨thread, hthread, -, rfl⟩ := exists_thread_of_status? hstatus
      cases hcase : thread.status with
      | starting body => exact ⟨thread, hthread, by simp [CanStep, hcase]⟩
      | running body => exact ⟨thread, hthread, by simp [CanStep, hcase]⟩
      | awaiting child next =>
          rw [hcase] at hstatus
          rcases htended a child next hstatus with ⟨body, hchild⟩ | ⟨slot, hslot, hrunning⟩
          · -- the creator has to wait, but its child can start
            obtain ⟨other, hother, -, hstarting⟩ := exists_thread_of_status? hchild
            exact ⟨other, hother, by simp [CanStep, hstarting]⟩
          · exact ⟨thread, hthread, by simp [CanStep, hcase, hslot, hrunning]⟩
      | parked pending =>
          rw [hcase] at hacts
          exact hacts.elim
      | exited =>
          rw [hcase] at hacts
          exact hacts.elim
  | granted a next =>
      obtain ⟨m', hstep⟩ := Option.ne_none_iff_exists'.mp (h.ready (p := p))
      obtain ⟨before, thread, after, hthreads, hthread, -⟩ := exists_thread_of_step? hstep
      exact ⟨thread, by rw [hthreads]; simp, canStep_iff.mpr (by rw [hthread]; rfl)⟩
  | decided a choice => exact h.elim

/-- In a state of a run some thread can take a step, unless all have exited. -/
theorem Lively.exists_canStep (p : Program β) {m : Machine σ β} (h : m.Lively)
    (hleft : ∃ thread ∈ m.threads, thread.status ≠ .exited) :
    ∃ thread ∈ m.threads, m.CanStep thread := by
  cases h with
  | goesOn turns tended => exact turns.exists_canStep p tended
  | lingers lingers =>
      obtain ⟨body, hbusy⟩ := lingers.busy
      obtain ⟨thread, hthread, -, hstatus⟩ := exists_thread_of_status? hbusy
      exact ⟨thread, hthread, by simp [CanStep, hstatus]⟩
  | halted halted =>
      obtain ⟨thread, hthread, hne⟩ := hleft
      exact ⟨thread, hthread, halted.canStep hthread hne⟩

end Machine

/-- A run never gets stuck, in whatever way its threads are interleaved and whatever its strategy
answers. In every state that it reaches before the identities run out, some thread can take a step
unless all have exited, in which case the run is marked as completed; and no bug of uncontrolled
synchronization has been recorded. -/
theorem Program.never_stuck [Strategy σ] (p : Program β) (c : Configuration) (i : Nat) (a : σ)
    {n : Nat} {m : Machine σ β} (h : Machine.Reaches p n (.start p (.new i c a)) m)
    (hn : n + 1 < UInt64.size) :
    ((∃ thread ∈ m.threads, thread.status ≠ .exited) →
      ∃ thread ∈ m.threads, m.CanStep thread ∧ (Machine.stepThread p m thread).isSome = true) ∧
    ((∀ thread ∈ m.threads, thread.status = .exited) → m.scheduler.completed = true) ∧
    ∀ bug ∈ m.scheduler.bug, bug.kind ≠ .uncontrolledSynchronization := by
  have htended : (Machine.start p (.new i c a)).Tended := by
    intro x child next hx
    rw [Machine.status?_start] at hx
    split at hx <;> cases hx
  have hlively : m.Lively := by
    refine h.lively ?_ (.goesOn (Machine.at_start p i c a) htended)
    show 1 + n < UInt64.size
    omega
  refine ⟨fun hleft => ?_, hlively.completed, hlively.bug⟩
  obtain ⟨thread, hthread, hcan⟩ := hlively.exists_canStep p hleft
  exact ⟨thread, hthread, hcan, Machine.canStep_iff.mp hcan⟩

/-- A harness that creates an operation, reports a failure and comes to its end. -/
def reporter : Program Nat where
  act
    | ⟨0⟩, 0 => .create "receiver" 0 fun _ => 1
    | ⟨0⟩, 1 => .report "lost" 2
    | ⟨0⟩, _ => .finish
    | _, body => .receive fun _ => body
  main := 0

/-- The report ends the run while the created operation is parked on a slot that is not active, and
the harness goes on by itself. Two steps later both have exited. -/
theorem Program.never_stuck_of_reporter :
    let start := Machine.start reporter (.new 0 {} firstEnabled)
    let m := Machine.runFor reporter 5 start
    let m' := Machine.runFor reporter 7 start
    (∃ n, Machine.Reaches reporter n start m ∧ n + 1 < UInt64.size) ∧
      m.scheduler.running = false ∧
      (∃ thread ∈ m.threads, m.CanStep thread ∧
        (Machine.stepThread reporter m thread).isSome = true) ∧
      (∃ n, Machine.Reaches reporter n start m' ∧ n + 1 < UInt64.size) ∧
      (∀ thread ∈ m'.threads, thread.status = .exited) ∧ m'.scheduler.completed = true := by
  intro start m m'
  have hleft : (m.threads.any fun thread => !thread.status.isExited) = true := by decide +kernel
  have hexited : (m'.threads.all fun thread => thread.status.isExited) = true := by decide +kernel
  obtain ⟨n, hreach, hn⟩ : ∃ n, Machine.Reaches reporter n start m ∧ n + 1 < UInt64.size :=
    Machine.exists_reaches_lt reporter start (by decide)
  obtain ⟨n', hreach', hn'⟩ : ∃ n, Machine.Reaches reporter n start m' ∧ n + 1 < UInt64.size :=
    Machine.exists_reaches_lt reporter start (by decide)
  obtain ⟨thread, hthread, hnot⟩ := List.any_eq_true.mp hleft
  have hall : ∀ thread ∈ m'.threads, thread.status = .exited := by
    intro thread hthread
    have hexit := List.all_eq_true.mp hexited thread hthread
    cases hstatus : thread.status with
    | exited => rfl
    | starting _ | running _ | parked _ | awaiting _ _ =>
        rw [hstatus] at hexit
        cases hexit
  have hover : m.scheduler.running = false := by decide +kernel
  obtain ⟨hstuck, -, -⟩ := Program.never_stuck reporter {} 0 firstEnabled hreach hn
  obtain ⟨-, hcompleted, -⟩ := Program.never_stuck reporter {} 0 firstEnabled hreach' hn'
  refine ⟨⟨n, hreach, hn⟩, hover, hstuck ⟨thread, hthread, fun hexit => ?_⟩, ⟨n', hreach', hn'⟩,
    hall, hcompleted hall⟩
  rw [hexit] at hnot
  cases hnot

end Interleave
