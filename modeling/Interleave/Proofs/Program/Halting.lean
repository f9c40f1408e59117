import Interleave.Proofs.Program.Control
import Interleave.Proofs.Program.Passage

/-!
# After the end of a run

If the scheduler is stopped and the operation in control exits with it, what is left is a halted
machine (`Machine.Halted`): every thread wakes up, exits and does nothing else, so that the bug of
the run stays what it is, be it one or none. An operation that only reports a failure goes on by
itself while all others sleep (`Machine.Lingers`), until it comes to a suspension point, which
leaves a halted machine as well.
-/

namespace Interleave

variable {σ β : Type}

namespace Status

/-- Whether the thread is in the middle of its body. -/
def isBusy : Status β → Bool
  | .running _ => true
  | .awaiting _ _ => true
  | _ => false

end Status

namespace Machine

/-- The run is over, which those who wait for it are told, all slots are killed, and no thread is in
the middle of its body. -/
structure Halted (m : Machine σ β) : Prop where
  running : m.scheduler.running = false
  completed : m.scheduler.completed = true
  killed : ∀ slot ∈ m.scheduler.slots, slot.active = true ∧ slot.enabled = false
  own : ∀ thread ∈ m.threads, thread.token.scheduler = m.scheduler.id
  registered : ∀ thread ∈ m.threads, m.scheduler.slot? thread.token.operation ≠ none
  idle : ∀ thread ∈ m.threads, thread.status.isBusy = false

/-- Every thread has a slot, and none but that of the given operation is in the middle of its
body. -/
structure Solo (m : Machine σ β) (a : OperationId) : Prop where
  threads : m.OwnThreads
  registered : ∀ thread ∈ m.threads, m.scheduler.slot? thread.token.operation ≠ none
  idle : ∀ thread ∈ m.threads, thread.token.operation ≠ a → thread.status.isBusy = false

theorem InControl.solo {m : Machine σ β} {a : OperationId} (h : m.InControl a) : m.Solo a where
  threads := h.threads
  registered thread hthread := by
    obtain ⟨slot, hslot, -⟩ := h.standing_of_mem hthread
    rw [hslot]
    exact Option.some_ne_none slot
  idle thread hthread hother := by
    obtain ⟨slot, -, hst⟩ := h.standing_of_mem hthread
    have hposture := hst.posture
    cases hstatus : thread.status with
    | running body =>
        rw [hstatus] at hposture
        exact absurd hposture hother
    | awaiting child next =>
        rw [hstatus] at hposture
        exact absurd hposture hother
    | starting body => rfl
    | parked pending => rfl
    | exited => rfl

/-- One thread changes, and is in the middle of its body only if it may be. -/
theorem Solo.revise {m m' : Machine σ β} {a : OperationId} (h : m.Solo a) {t : Token}
    {status : Status β} (hthreads : m'.threads = (m.setStatus t status).threads)
    (hid : m'.scheduler.id = m.scheduler.id)
    (hids : m'.scheduler.slots.map Slot.id = m.scheduler.slots.map Slot.id)
    (hidle : t.operation ≠ a → status.isBusy = false) : m'.Solo a where
  threads := (h.threads.setStatus t status).congr hthreads hid
  registered other hother := by
    rw [hthreads] at hother
    obtain ⟨old, hold, rfl⟩ := List.mem_map.mp hother
    have hkept : m'.scheduler.slot? old.token.operation ≠ none := by
      rw [Ne, Scheduler.slot?_eq_none_iff, hids, ← Scheduler.slot?_eq_none_iff]
      exact h.registered old hold
    split <;> exact hkept
  idle other hother hne := by
    rw [hthreads] at hother
    obtain ⟨old, hold, rfl⟩ := List.mem_map.mp hother
    by_cases htoken : old.token = t
    · rw [if_pos htoken] at hne ⊢
      exact hidle (htoken ▸ hne)
    · rw [if_neg htoken] at hne ⊢
      exact h.idle old hold hne

theorem Solo.eq_of_isBusy {m : Machine σ β} {a : OperationId} (h : m.Solo a) {thread : Thread β}
    (hthread : thread ∈ m.threads) (hbusy : thread.status.isBusy = true) :
    thread.token.operation = a := by
  by_contra hne
  rw [h.idle thread hthread hne] at hbusy
  cases hbusy

/-- The operation that may be in the middle of its body exits and all others are killed. -/
theorem Solo.halt {m m' : Machine σ β} {a : OperationId} (h : m.Solo a)
    {thread : Thread β} (hthread : thread ∈ m.threads) (hop : thread.token.operation = a)
    (hthreads : m'.threads = (m.setStatus thread.token .exited).threads)
    {s : Scheduler σ} (hid : s.id = m.scheduler.id)
    (hids : s.slots.map Slot.id = m.scheduler.slots.map Slot.id)
    (hstopped : s.Stopped m'.scheduler) : m'.Halted := by
  have hsolo : m'.Solo a := h.revise hthreads (hstopped.id.trans hid)
    (hstopped.ids.trans hids) fun _ => rfl
  refine ⟨hstopped.running, hstopped.completed, fun slot hslot => ?_, hsolo.threads.own,
    hsolo.registered, fun other hother => ?_⟩
  · rw [hstopped.slots] at hslot
    obtain ⟨old, -, rfl⟩ := List.mem_map.mp hslot
    exact ⟨rfl, rfl⟩
  · rw [hthreads] at hother
    obtain ⟨old, hold, rfl⟩ := List.mem_map.mp hother
    split
    · rfl
    · rename_i hne
      exact h.idle old hold fun heq => hne (h.threads.token_eq hthread hold (heq.trans hop.symm))

/-- The run is over, but the operation that has reported this goes on to its next scheduling point,
while all others sleep. -/
structure Lingers (m : Machine σ β) (a : OperationId) : Prop extends m.Solo a where
  running : m.scheduler.running = false
  completed : m.scheduler.completed = true
  busy : ∃ body, m.status? a = some (.running body)
  asleep : ∀ slot ∈ m.scheduler.slots, slot.id ≠ a → slot.active = false

/-- The operation in control reports a failure and goes on. -/
theorem InControl.linger {m : Machine σ β} {a : OperationId} (h : m.InControl a)
    {thread : Thread β} (hthread : thread ∈ m.threads) (hop : thread.token.operation = a)
    (text : String) (next : β) :
    ((m.withScheduler (·.reportAssertion text)).setStatus thread.token
      (.running next)).Lingers a where
  toSolo := h.solo.revise rfl rfl rfl fun hne => absurd hop hne
  running := rfl
  completed := rfl
  busy := ⟨next, (h.threads.status?_setStatus hthread _ a).trans (if_pos hop.symm)⟩
  asleep slot hslot hne := by
    have hfound := Scheduler.slot?_of_mem h.slots hslot
    rcases h.stands slot.id with ⟨-, hnone, -⟩ | ⟨status, slot', -, hslot', hst⟩
    · rw [hfound] at hnone
      cases hnone
    · rw [hfound] at hslot'
      cases hslot'
      simpa [hne] using hst.active

/-- The slot of a thread that sleeps. -/
theorem Lingers.exists_asleep {m : Machine σ β} {a : OperationId} (h : m.Lingers a)
    {thread : Thread β} (hthread : thread ∈ m.threads) (hidle : thread.status.isBusy = false) :
    thread.token.operation ≠ a ∧
      ∃ slot, m.scheduler.slot? thread.token.operation = some slot ∧ slot.active = false := by
  have hne : thread.token.operation ≠ a := by
    intro hop
    obtain ⟨body, hbusy⟩ := h.busy
    rw [← hop, h.threads.status?_eq hthread, Option.some.injEq] at hbusy
    rw [hbusy] at hidle
    cases hidle
  obtain ⟨slot, hslot⟩ := Option.ne_none_iff_exists'.mp (h.registered thread hthread)
  have hid : slot.id = thread.token.operation := by simpa using List.find?_some hslot
  exact ⟨hne, slot, hslot, h.asleep slot (Scheduler.mem_of_slot? hslot) (hid ▸ hne)⟩

/-- The thread that goes on takes a step in its body. -/
theorem Lingers.resume {m m' : Machine σ β} {a : OperationId} (h : m.Lingers a) {thread : Thread β}
    (hthread : thread ∈ m.threads) (hop : thread.token.operation = a) (next : β)
    (hthreads : m'.threads = (m.setStatus thread.token (.running next)).threads)
    (hid : m'.scheduler.id = m.scheduler.id) (hslots : m'.scheduler.slots = m.scheduler.slots)
    (hover : m'.scheduler.running = false) (hcompleted : m'.scheduler.completed = true) :
    m'.Lingers a where
  toSolo := h.toSolo.revise hthreads hid (by rw [hslots]) fun hne => absurd hop hne
  running := hover
  completed := hcompleted
  busy := by
    refine ⟨next, ?_⟩
    have hset := (h.threads.status?_setStatus hthread (.running next) a).trans (if_pos hop.symm)
    simpa only [status?, hthreads] using hset
  asleep slot hslot := by
    rw [hslots] at hslot
    exact h.asleep slot hslot

theorem Halted.exit {m : Machine σ β} (h : m.Halted) (t : Token) :
    (m.setStatus t .exited).Halted where
  running := h.running
  completed := h.completed
  killed := h.killed
  own thread hthread := by
    obtain ⟨old, hold, rfl⟩ := List.mem_map.mp hthread
    have := h.own old hold
    split <;> exact this
  registered thread hthread := by
    obtain ⟨old, hold, rfl⟩ := List.mem_map.mp hthread
    have := h.registered old hold
    split <;> exact this
  idle thread hthread := by
    obtain ⟨old, hold, rfl⟩ := List.mem_map.mp hthread
    have := h.idle old hold
    split
    · rfl
    · exact this

variable [Strategy σ]

/-- All that a thread of a halted machine can do is exit, which changes nothing but its slot. -/
theorem Halted.stepThread {p : Program β} {m m' : Machine σ β} (h : m.Halted)
    {thread : Thread β} (hthread : thread ∈ m.threads) (hstep : stepThread p m thread = some m') :
    m'.Halted ∧ ∃ slots, m'.scheduler = { m.scheduler with slots } := by
  -- a killed slot wakes its thread up with the news that the run is over
  have hwake : ∃ slot, m.scheduler.slot? thread.token.operation = some slot ∧
      slot.wake = .canceled := by
    obtain ⟨slot, hslot⟩ := Option.ne_none_iff_exists'.mp (h.registered thread hthread)
    obtain ⟨hactive, henabled⟩ := h.killed slot (Scheduler.mem_of_slot? hslot)
    exact ⟨slot, hslot, by simp [Slot.wake, hactive, henabled]⟩
  obtain ⟨slot, hslot, hcanceled⟩ := hwake
  have hidle := h.idle thread hthread
  have hstep := ThreadStep.of_stepThread hstep
  generalize threadSaid p m thread = l at hstep
  cases hstep with
  | starts t body =>
      let start : Slot → Slot := fun slot => { slot with handlerRunning := true }
      have hstart : m.scheduler.start t =
          (.canceled, m.scheduler.updateSlot t.operation start) := by
        rw [Scheduler.start_of_known hslot (h.own _ hthread), hcanceled]
      -- the start is still noted in the slot, which stays killed
      have hstarted : (m.withScheduler (·.updateSlot t.operation start)).Halted := by
        refine ⟨h.running, h.completed, fun other hother => ?_, h.own,
          fun other hother => ?_, h.idle⟩
        · obtain ⟨old, hold, rfl⟩ := List.mem_map.mp hother
          have := h.killed old hold
          split <;> exact this
        · have hfound := Scheduler.slot?_updateSlot m.scheduler t.operation
            other.token.operation (f := start) fun _ => rfl
          have hregistered := h.registered other hother
          show (m.scheduler.updateSlot t.operation start).slot? _ ≠ none
          rw [hfound]
          split
          · simpa using hregistered
          · exact hregistered
      rw [hstart]
      exact ⟨hstarted.exit t, _, rfl⟩
  | performs wake =>
      rw [hslot, Option.map_some, hcanceled] at wake
      cases wake
  | @cancels t _ _ => exact ⟨h.exit t, m.scheduler.slots, rfl⟩
  | acts _ _ => cases hidle
  | resumes _ => cases hidle

/-- A thread that starts falls asleep as well. -/
theorem Lingers.register {m : Machine σ β} {a : OperationId} (h : m.Lingers a) {thread : Thread β}
    (hthread : thread ∈ m.threads) {body : β} (hstatus : thread.status = .starting body) :
    (m.suspend thread.token (.start body) (m.scheduler.start thread.token)).Lingers a := by
  let start : Slot → Slot := fun slot => { slot with handlerRunning := true }
  obtain ⟨hne, slot, hslot, hasleep⟩ := h.exists_asleep hthread (by rw [hstatus]; rfl)
  have hstart : m.scheduler.start thread.token =
      (.parked, m.scheduler.updateSlot thread.token.operation start) := by
    rw [Scheduler.start_of_known hslot (h.threads.own thread hthread), Slot.wake, hasleep]
    rfl
  rw [hstart]
  refine ⟨h.toSolo.revise rfl rfl ?_ fun _ => rfl, h.running, h.completed, ?_,
    fun other hother => ?_⟩
  · exact Scheduler.ids_updateSlot m.scheduler _ fun _ => rfl
  · obtain ⟨body', hbusy⟩ := h.busy
    exact ⟨body', (h.threads.status?_setStatus hthread _ a).trans
      ((if_neg (Ne.symm hne)).trans hbusy)⟩
  · obtain ⟨old, hold, rfl⟩ := List.mem_map.mp hother
    split
    · exact h.asleep old hold
    · exact h.asleep old hold

/-- The thread that goes on takes one action, and exits if this is at a suspension point. -/
theorem Lingers.execute {m : Machine σ β} {a : OperationId} (h : m.Lingers a) {thread : Thread β}
    (hthread : thread ∈ m.threads) (hop : thread.token.operation = a) (body : β)
    (action : Action β) :
    (m.execute thread.token body action).Lingers a ∨
      (m.execute thread.token body action).Halted := by
  have hhalt : ∀ {m₁ : Machine σ β}, m₁.threads = m.threads → m₁.scheduler.id = m.scheduler.id →
      m₁.scheduler.slots.map Slot.id = m.scheduler.slots.map Slot.id →
        ({ m₁ with scheduler := m₁.scheduler.stop }.setStatus thread.token .exited).Halted :=
    fun hthreads hid hids => h.toSolo.halt hthread hop (congrArg (List.map _) hthreads) hid hids
      ⟨rfl, rfl, rfl, rfl⟩
  -- the run is over, so that every request is refused and every notice is dropped
  have href := Scheduler.refusal?_of_over h.running thread.token
  have hact := ActionStep.of_execute m thread.token body action
  generalize m.executeSaid thread.token body action = l,
    m.execute thread.token body action = m' at hact ⊢
  cases hact with
  | @arrives _ m₁ pending happ =>
      have hsteady := steady_approach happ
      have hrefused := Scheduler.refusal?_of_over (hsteady.running.trans h.running) thread.token
      rw [arrive_eq, declare, Scheduler.yield_of_refused hrefused]
      exact Or.inr (hhalt (threads_approach happ) hsteady.id (ids_approach happ))
  | flips fairness next =>
      simp only [Scheduler.nextBoolean, href]
      exact Or.inr (hhalt rfl rfl rfl)
  | rolls max next =>
      simp only [Scheduler.nextInteger, href]
      exact Or.inr (hhalt rfl rfl rfl)
  | fails text =>
      exact Or.inr (h.toSolo.halt hthread hop rfl rfl rfl
        (Scheduler.stopped_fail m.scheduler _ _))
  | reports text next => exact Or.inl (h.resume hthread hop next rfl rfl rfl rfl rfl)
  | tells name hot next =>
      have hstays : m.scheduler.notify (.monitored name thread.token.operation hot) =
          m.scheduler := Scheduler.notify_of_over h.running _
      simp only [withScheduler, hstays]
      exact Or.inl (h.resume hthread hop next rfl rfl rfl h.running h.completed)
  | logs _ next | hides next =>
      exact Or.inl (h.resume hthread hop next rfl rfl rfl h.running h.completed)

/-- After a reported failure a step leads to a state of the same kind or to a halted machine. -/
theorem Lingers.stepThread {p : Program β} {m m' : Machine σ β} {a : OperationId} (h : m.Lingers a)
    {thread : Thread β} (hthread : thread ∈ m.threads) (hstep : stepThread p m thread = some m') :
    m'.Lingers a ∨ m'.Halted := by
  have hstep := ThreadStep.of_stepThread hstep
  generalize threadSaid p m thread = l at hstep
  cases hstep with
  | starts t body => exact Or.inl (h.register hthread rfl)
  | acts t body => exact h.execute hthread (h.eq_of_isBusy hthread rfl) body _
  | performs wake | cancels wake =>
      obtain ⟨-, slot, hslot, hasleep⟩ := h.exists_asleep hthread rfl
      simp [hslot, Slot.wake, hasleep] at wake
  | resumes _ =>
      -- the thread that goes on after the report does not wait for a child
      have hop := h.eq_of_isBusy hthread rfl
      obtain ⟨body, hbusy⟩ := h.busy
      rw [← hop, h.threads.status?_eq hthread] at hbusy
      cases hbusy

/-- Once a machine has halted, its scheduler stays what it is, up to the slots. -/
theorem Halted.scheduler_runFor {p : Program β} {m : Machine σ β} (h : m.Halted) (n : Nat) :
    ∃ slots, (runFor p n m).scheduler = { m.scheduler with slots } := by
  induction n generalizing m with
  | zero => exact ⟨m.scheduler.slots, rfl⟩
  | succ n ih =>
      unfold runFor
      cases hstep : step? p m with
      | none => exact ⟨m.scheduler.slots, rfl⟩
      | some m' =>
          obtain ⟨before, thread, after, hthreads, hthread, -, -⟩ := exists_thread_of_step? hstep
          have hmem : thread ∈ m.threads := by
            rw [hthreads]
            simp
          obtain ⟨hhalted, slots, hslots⟩ := h.stepThread hmem hthread
          obtain ⟨slots', hrest⟩ := ih hhalted
          exact ⟨slots', hrest.trans (by rw [hslots])⟩

/-- The bug of a halted machine stays what it is. -/
theorem Halted.bug_runFor {p : Program β} {m : Machine σ β} (h : m.Halted) (n : Nat) :
    (runFor p n m).scheduler.bug = m.scheduler.bug := by
  obtain ⟨slots, hslots⟩ := h.scheduler_runFor (p := p) n
  rw [hslots]

end Machine

end Interleave
