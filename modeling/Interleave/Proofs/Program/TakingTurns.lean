import Interleave.Proofs.Program.Halting
import Interleave.Proofs.Scheduler.Yielding

/-!
# Operations take turns

A machine is at a turn (`Machine.At`) if the invariant of `Control` holds of it and the thread of
the operation in control does what the turn says. Every step of a thread either leads to another
turn, with a dialogue that is a path between the two, or stops the run (`Machine.at_stepThread`).
There are few ways to stop a run, and `Machine.Stops` tells what is left behind in each of them.
-/

namespace Interleave

variable {σ β : Type}

namespace Status

/-- Whether the thread of an operation in control goes on without having to announce anything. -/
def Acts (x : OperationId) : Status β → Prop
  | .starting _ => x = .harness
  | .running _ => True
  | .awaiting _ _ => True
  | _ => False

/-- Whether the thread of an operation in control is to perform what it has declared. -/
def Waits (x : OperationId) : Status β → Prop
  | .starting _ => x ≠ .harness
  | .parked _ => True
  | _ => False

theorem Acts.of_isBusy {x : OperationId} {status : Status β} (h : status.isBusy = true) :
    status.Acts x := by
  cases status with
  | running body => trivial
  | awaiting child next => trivial
  | _ => cases h

end Status

namespace Machine

/-- The invariant holds, and the thread of the operation in control does what the turn says. -/
def At (m : Machine σ β) : Turn → Prop
  | .holds a => m.InControl a ∧ ∃ status, m.status? a = some status ∧ status.Acts a
  | .granted a next => m.InControl a ∧ ∃ status slot, m.status? a = some status ∧
      m.scheduler.slot? a = some slot ∧ slot.enabled = true ∧ slot.next = next ∧ status.Waits a
  | .decided _ _ => False

theorem At.same {m m' : Machine σ β} {turn : Turn} (h : m.At turn) (hsame : m.SameControl m') :
    m'.At turn := by
  cases turn with
  | holds a =>
      obtain ⟨hcontrol, status, hstatus, hacts⟩ := h
      exact ⟨hcontrol.same hsame, status, by rw [hsame.status?, hstatus], hacts⟩
  | granted a next =>
      obtain ⟨hcontrol, status, slot, hstatus, hslot, hrest⟩ := h
      exact ⟨hcontrol.same hsame, status, slot, by rw [hsame.status?, hstatus],
        by rw [hsame.slot?, hslot], hrest⟩
  | decided a choice => exact h

/-- In every turn some operation is in control. -/
theorem At.inControl {m : Machine σ β} {turn : Turn} (h : m.At turn) : ∃ a, m.InControl a := by
  cases turn with
  | holds a => exact ⟨a, h.1⟩
  | granted a next => exact ⟨a, h.1⟩
  | decided a choice => exact h.elim

/-- The thread of the operation in control tells which turn it is. -/
theorem At.turn_cases {m : Machine σ β} {turn : Turn} (h : m.At turn) {a : OperationId}
    (hcontrol : m.InControl a) {status : Status β} (hstatus : m.status? a = some status) :
    (turn = .holds a ∧ status.Acts a) ∨
      ∃ slot, turn = .granted a slot.next ∧ m.scheduler.slot? a = some slot ∧
        slot.enabled = true ∧ status.Waits a := by
  cases turn with
  | holds b =>
      obtain ⟨hb, found, hfound, hacts⟩ := h
      obtain rfl := Option.some.inj (hb.scheduled.symm.trans hcontrol.scheduled)
      rw [hstatus] at hfound
      obtain rfl := Option.some.inj hfound
      exact Or.inl ⟨rfl, hacts⟩
  | granted b next =>
      obtain ⟨hb, found, slot, hfound, hslot, henabled, rfl, hwaits⟩ := h
      obtain rfl := Option.some.inj (hb.scheduled.symm.trans hcontrol.scheduled)
      rw [hstatus] at hfound
      obtain rfl := Option.some.inj hfound
      exact Or.inr ⟨slot, rfl, hslot, henabled, hwaits⟩
  | decided b choice => exact h.elim

/-- A turn is about the operation in control only. -/
theorem At.keep {m m' : Machine σ β} {turn : Turn} (h : m.At turn) {a : OperationId}
    (hcontrol : m.InControl a) (hcontrol' : m'.InControl a) (hstatus : m'.status? a = m.status? a)
    (hslot : m'.scheduler.slot? a = m.scheduler.slot? a) : m'.At turn := by
  -- the status and the slot decide which turn it is, and both are as before
  obtain ⟨status, -, hfound, -, -⟩ := hcontrol.stands_self
  rcases h.turn_cases hcontrol hfound with ⟨rfl, hacts⟩ | ⟨slot, rfl, hslot', henabled, hwaits⟩
  · exact ⟨hcontrol', status, hstatus.trans hfound, hacts⟩
  · exact ⟨hcontrol', status, slot, hstatus.trans hfound, hslot.trans hslot', henabled, rfl,
      hwaits⟩

/-- The thread of the operation in control goes on in its body. -/
theorem InControl.resume {m : Machine σ β} {a : OperationId} (h : m.InControl a)
    {thread : Thread β} (hthread : thread ∈ m.threads) (hop : thread.token.operation = a)
    (hexited : thread.status.isExited = false)
    (hinbox : thread.status.receives = true → (m.inbox a).isEmpty = false) (status : Status β)
    (hbusy : status.isBusy = true) : (m.setStatus thread.token status).At (.holds a) := by
  subst hop
  refine ⟨h.setStatus hthread ?_ fun slot hst => ?_, status, ?_, .of_isBusy hbusy⟩
  · cases status with
    | running body => rfl
    | awaiting child next => rfl
    | _ => cases hbusy
  · -- the slot of a thread that goes on neither waits nor is completed
    have hwaiting : slot.waiting = false := by
      rw [hst.waiting]
      cases hreceives : thread.status.receives with
      | false => rfl
      | true => simp [hinbox hreceives]
    have hcompleted : slot.completed = false := hst.completed.trans hexited
    cases status with
    | running body =>
        exact ⟨hst.active, hcompleted, hwaiting, hst.enabled, rfl⟩
    | awaiting child next =>
        exact ⟨hst.active, hcompleted, hwaiting, hst.enabled, rfl⟩
    | _ => cases hbusy
  · rw [h.threads.status?_setStatus hthread, if_pos rfl]

/-- The slot of an operation that is to perform what it has declared. -/
theorem At.exists_slot {m : Machine σ β} {a : OperationId} {next : Declared}
    (h : m.At (.granted a next)) {thread : Thread β} (hthread : thread ∈ m.threads)
    (hop : thread.token.operation = a) :
    ∃ slot, slot.next = next ∧ slot.enabled = true ∧
      Standing a (a = a) (m.inbox a) thread.status slot := by
  subst hop
  obtain ⟨hcontrol, status, slot, hfound, hslot, henabled, hnext, -⟩ := h
  obtain ⟨slot', hslot', hst⟩ := hcontrol.standing_of_mem hthread
  rw [hslot] at hslot'
  cases hslot'
  exact ⟨slot, hnext, henabled, hst⟩

/-- A parked thread waits on, unless it is that of the operation in control, which is then to
perform what it has declared. -/
theorem At.wake_parked {m : Machine σ β} {turn : Turn} (h : m.At turn) {a : OperationId}
    (hcontrol : m.InControl a) {thread : Thread β} (hthread : thread ∈ m.threads)
    {pending : Pending β} (hstatus : thread.status = .parked pending) :
    (thread.token.operation = a ∧ (∃ next, turn = .granted a next) ∧
        (m.scheduler.slot? thread.token.operation).map Slot.wake = some .proceed) ∨
      (m.scheduler.slot? thread.token.operation).map Slot.wake = some .parked := by
  obtain ⟨slot, hslot, hst⟩ := hcontrol.standing_of_mem hthread
  have hfound := hcontrol.threads.status?_eq hthread
  rw [hslot, Option.map_some]
  by_cases hop : thread.token.operation = a
  · rw [hop, hstatus] at hfound
    rcases h.turn_cases hcontrol hfound with ⟨-, hacts⟩ | ⟨slot', rfl, hslot', henabled, -⟩
    · exact hacts.elim
    · rw [← hop, hslot] at hslot'
      cases hslot'
      refine Or.inl ⟨hop, ⟨_, rfl⟩, ?_⟩
      simp [Slot.wake, hst.active.mpr hop, henabled]
  · refine Or.inr ?_
    simp [Slot.wake, hst.active, hop]

/-! ## At a scheduling point -/

/-- An enabled operation has something to perform once the operation in control has come to a
scheduling point. -/
theorem InControl.waits {m : Machine σ β} {a d : OperationId} (h : m.InControl a)
    (hyields : ∀ status, m.status? a = some status → status.yields = true) {slot : Slot}
    (hslot : m.scheduler.slot? d = some slot) (henabled : slot.enabled = true) :
    ∃ status, m.status? d = some status ∧ status.Waits d := by
  rcases h.stands d with ⟨-, hnone, -⟩ | ⟨status, found, hstatus, hfound, hst⟩
  · rw [hslot] at hnone
    cases hnone
  · rw [hslot] at hfound
    cases hfound
    have hposture := hst.posture
    -- a thread that is not at a scheduling point would be that of the operation in control
    have hidle : status.yields = false → d ≠ a := by
      rintro hbusy rfl
      rw [hyields status hstatus] at hbusy
      cases hbusy
    refine ⟨status, hstatus, ?_⟩
    cases status with
    | starting body =>
        intro hharness
        exact hidle rfl (hposture.2 hharness)
    | running body => exact absurd hposture (hidle rfl)
    | awaiting child next => exact absurd hposture (hidle rfl)
    | parked pending => trivial
    | exited =>
        have hcompleted : slot.completed = true := hst.completed
        have hdisabled := hst.enabled
        rw [henabled, hcompleted] at hdisabled
        cases hdisabled

/-- Control goes to an enabled operation, which is then to perform what it has declared. -/
theorem InControl.grant {m : Machine σ β} {a d : OperationId} (h : m.InControl a)
    (hyields : ∀ status, m.status? a = some status → status.yields = true) {slot : Slot}
    (hslot : m.scheduler.slot? d = some slot) (henabled : slot.enabled = true) :
    (m.withScheduler fun s => (s.handOver a d).2).At (.granted d slot.next) := by
  obtain ⟨hcontrol, slot', hslot', henabled', hnext⟩ := h.handOver hyields hslot henabled
  obtain ⟨status, hstatus, hwaits⟩ := h.waits hyields hslot henabled
  exact ⟨hcontrol, status, slot', hstatus, hslot', henabled', hnext, hwaits⟩

theorem yields_rest (pending : Pending β) : pending.rest.yields = true := by
  cases pending <;> rfl

/-- A thread at a scheduling point is parked, unless it has come to its end. -/
theorem rest_cases (pending : Pending β) :
    (pending = .stop ∧ pending.rest = .exited) ∨
      (pending.rest = .parked pending ∧ pending.rest.isExited = false) := by
  cases pending with
  | stop => exact Or.inl ⟨rfl, rfl⟩
  | start body => exact Or.inr ⟨rfl, rfl⟩
  | create id name child next => exact Or.inr ⟨rfl, rfl⟩
  | send target name value next => exact Or.inr ⟨rfl, rfl⟩
  | receive again next => exact Or.inr ⟨rfl, rfl⟩

/-- A thread that starts becomes known as one that does. -/
theorem InControl.register {m : Machine σ β} {a : OperationId} (h : m.InControl a)
    {thread : Thread β} (hthread : thread ∈ m.threads) {body : β}
    (hstatus : thread.status = .starting body) (hchild : thread.token.operation ≠ .harness) :
    let start : Slot → Slot := fun slot => { slot with handlerRunning := true }
    ((m.withScheduler (·.updateSlot thread.token.operation start)).setStatus thread.token
      (.parked (.start body))).InControl a := by
  intro start
  refine h.setStatus_updateSlot hthread (fun _ => rfl)
    (h.numbering.setStatus h.threads hthread _ rfl) fun slot hst => ?_
  rw [hstatus] at hst
  exact ⟨hst.active, hst.completed, hst.waiting, hst.enabled, hst.posture.1, hchild⟩

/-- A thread that starts when it is its turn already has been granted control. -/
theorem At.register {m : Machine σ β} {turn : Turn} (h : m.At turn) {a : OperationId}
    (hcontrol : m.InControl a) {thread : Thread β} (hthread : thread ∈ m.threads) {body : β}
    (hstatus : thread.status = .starting body) (hop : thread.token.operation = a)
    (hharness : thread.token.operation ≠ .harness) :
    ∃ next, turn = .granted a next ∧
      ((m.withScheduler (·.updateSlot thread.token.operation fun slot =>
        { slot with handlerRunning := true })).setStatus thread.token
          (.parked (.start body))).At (.granted a next) := by
  let start : Slot → Slot := fun slot => { slot with handlerRunning := true }
  have hfound := hcontrol.threads.status?_eq hthread
  rw [hop, hstatus] at hfound
  rcases h.turn_cases hcontrol hfound with ⟨rfl, hacts⟩ | ⟨slot, rfl, hslot, henabled, -⟩
  · exact absurd (hop.trans hacts) hharness
  · have hset := (hcontrol.threads.status?_setStatus hthread (.parked (.start body)) a).trans
      (if_pos hop.symm)
    have hstarted := Scheduler.slot?_updateSlot m.scheduler thread.token.operation a
      (f := start) fun _ => rfl
    rw [if_pos hop.symm, hslot] at hstarted
    exact ⟨slot.next, rfl, hcontrol.register hthread hstatus hharness, .parked (.start body),
      start slot, hset, hstarted, henabled, rfl, trivial⟩

/-- The reply to a thread that starts: control, if it is its turn already. -/
theorem InControl.reply_start {m : Machine σ β} {a : OperationId} (h : m.InControl a)
    {thread : Thread β} (hthread : thread ∈ m.threads) {body : β}
    (hstatus : thread.status = .starting body) :
    m.scheduler.start thread.token =
      (if thread.token.operation = a then .proceed else .parked,
        m.scheduler.updateSlot thread.token.operation
          fun slot => { slot with handlerRunning := true }) := by
  obtain ⟨slot, hslot, hst⟩ := h.standing_of_mem hthread
  rw [hstatus] at hst
  -- the slot of a thread that starts is enabled: it is active for the operation in control only
  have hwake : slot.wake = if thread.token.operation = a then .proceed else .parked := by
    have hcompleted : slot.completed = false := hst.completed
    have hwaiting : slot.waiting = false := hst.waiting
    have henabled : slot.enabled = true := by
      rw [hst.enabled, hcompleted, hwaiting]
      rfl
    simp [Slot.wake, henabled, hst.active]
  rw [← hwake]
  exact Scheduler.start_of_known hslot (h.threads.own thread hthread)

/-- The scheduling point of the thread in control is a proper one. -/
theorem InControl.misuse?_poised {m₁ : Machine σ β} {a : OperationId} {t : Token}
    {pending : Pending β} (h : (m₁.poised t pending).InControl a)
    (hmem : ⟨t, pending.rest⟩ ∈ (m₁.poised t pending).threads) (hop : t.operation = a) :
    m₁.scheduler.misuse? t = none := by
  obtain ⟨slot, hslot, -⟩ := h.standing_of_mem hmem
  have hown : t.scheduler = m₁.scheduler.id := h.threads.own ⟨t, pending.rest⟩ hmem
  refine Scheduler.misuse?_eq_none hown ?_ (hop ▸ h.scheduled)
  intro hnone
  have hfound := (Scheduler.slot?_updateSlot m₁.scheduler t.operation t.operation
    (f := (·.declare (pending.declared t.operation))) fun _ => rfl).symm.trans hslot
  rw [hnone] at hfound
  simp at hfound

/-! ## Performing what has been declared -/

theorem setStatus_setStatus (m : Machine σ β) (t : Token) (first second : Status β) :
    (m.setStatus t first).setStatus t second = m.setStatus t second := by
  simp only [setStatus, List.map_map]
  congr 1
  refine List.map_congr_left fun thread _ => ?_
  by_cases h : thread.token = t
  · simp [h]
  · simp [h]

theorem ids_poised (m : Machine σ β) (t : Token) (pending : Pending β) :
    (m.poised t pending).scheduler.slots.map Slot.id = m.scheduler.slots.map Slot.id :=
  Scheduler.ids_updateSlot m.scheduler t.operation
    (f := (·.declare (pending.declared t.operation))) fun _ => rfl

/-- A thread that is told at a scheduling point that the run is over exits. -/
theorem InControl.halt_poised {m : Machine σ β} {a : OperationId} {t : Token}
    {pending : Pending β} (h : (m.poised t pending).InControl a)
    (hmem : ⟨t, pending.rest⟩ ∈ (m.poised t pending).threads) (hop : t.operation = a)
    {s s' : Scheduler σ} (hid : s.id = m.scheduler.id)
    (hids : s.slots.map Slot.id = m.scheduler.slots.map Slot.id) (hstopped : s.Stopped s') :
    ({ m with scheduler := s' }.setStatus t .exited).Halted := by
  have hthreads : (m.setStatus t .exited).threads =
      ((m.poised t pending).setStatus t .exited).threads := by
    unfold poised
    rw [setStatus_setStatus]
    rfl
  exact h.solo.halt hmem hop hthreads hid (hids.trans (ids_poised m t pending).symm) hstopped

variable [Strategy σ]

/-- What a thread performs does not depend on where it stands. -/
theorem perform_setStatus (m : Machine σ β) (t : Token) (status : Status β)
    (pending : Pending β) : (m.setStatus t status).perform t pending = m.perform t pending := by
  cases pending with
  | start body =>
      simp only [perform, setStatus_setStatus]
  | create id name child next =>
      have h := setStatus_setStatus
        { m with
          scheduler := (m.scheduler.create id name).2.notify (.created t.operation id)
          threads := m.threads ++ [⟨(m.scheduler.create id name).1, .starting child⟩] }
        t status (.awaiting id (next id))
      simp only [perform, performCreate]
      rw [← h]
      simp only [setStatus, List.map_append, List.map_map, List.map_cons, List.map_nil]
      congr 2
      simp only [List.cons.injEq, and_true]
      by_cases htoken : (m.scheduler.create id name).1 = t
      · simp [htoken]
      · simp [htoken]
  | send target name value next =>
      simp only [perform, performSend]
      have h : ∀ (s : Scheduler σ) (n : UInt64),
          ({ m.setStatus t status with scheduler := s, nextMessage := n } : Machine σ β).setStatus t
            (.running next) = { m with scheduler := s, nextMessage := n }.setStatus t
              (.running next) :=
        fun s n => setStatus_setStatus { m with scheduler := s, nextMessage := n } t status _
      rw [← h]
      rfl
  | receive again next =>
      simp only [perform, performReceive]
      have hinbox : (m.setStatus t status).inbox t.operation = m.inbox t.operation := rfl
      rw [hinbox]
      cases m.inbox t.operation with
      | nil => exact setStatus_setStatus m t status _
      | cons message rest =>
          exact setStatus_setStatus ((m.setInbox t.operation rest).withScheduler
            (·.notify (.received t.operation message.event))) t status _
  | stop => exact setStatus_setStatus m t status _

theorem sameControl_notify (m : Machine σ β) (n : Notice) :
    m.SameControl (m.withScheduler (·.notify n)) := by
  have h : ∀ s : Scheduler σ, (s.notify n).id = s.id ∧ (s.notify n).slots = s.slots ∧
      (s.notify n).scheduled = s.scheduled ∧ (s.notify n).running = s.running ∧
      (s.notify n).bug = s.bug ∧ (s.notify n).error = s.error := by
    intro s
    cases hrun : s.running with
    | true =>
        rw [Scheduler.notify_of_running hrun]
        exact ⟨rfl, rfl, rfl, hrun, rfl, rfl⟩
    | false =>
        rw [Scheduler.notify_of_over hrun]
        exact ⟨rfl, rfl, rfl, hrun, rfl, rfl⟩
  obtain ⟨hid, hslots, hscheduled, hrun, hbug, herror⟩ := h m.scheduler
  exact ⟨rfl, rfl, rfl, hid, hslots, hscheduled, hrun, hbug, herror⟩

theorem sameControl_send (m : Machine σ β) (sender target : OperationId) (event : Event)
    (nextMessage : UInt64) :
    m.SameControl
      { m with scheduler := (m.scheduler.send sender target event).2, nextMessage } := by
  have h : ∀ s : Scheduler σ, (s.send sender target event).2.id = s.id ∧
      (s.send sender target event).2.slots = s.slots ∧
      (s.send sender target event).2.scheduled = s.scheduled ∧
      (s.send sender target event).2.running = s.running ∧
      (s.send sender target event).2.bug = s.bug ∧
      (s.send sender target event).2.error = s.error := by
    intro s
    cases hrun : s.running with
    | true =>
        rw [Scheduler.send_of_running hrun]
        exact ⟨rfl, rfl, rfl, hrun, rfl, rfl⟩
    | false =>
        rw [Scheduler.send_of_over hrun]
        exact ⟨rfl, rfl, rfl, hrun, rfl, rfl⟩
  obtain ⟨hid, hslots, hscheduled, hrun, hbug, herror⟩ := h m.scheduler
  exact ⟨rfl, rfl, rfl, hid, hslots, hscheduled, hrun, hbug, herror⟩

/-- A creation is that of the machine in which the creator waits already. -/
theorem performCreate_eq {m : Machine σ β} {t : Token} {id : OperationId}
    (hfresh : m.scheduler.slot? id = none) (hne : t.operation ≠ id) (name : String)
    (child next : β) :
    m.performCreate t id name child next =
      ((m.setStatus t (.awaiting id next)).spawn id name child).withScheduler
        (·.notify (.created t.operation id)) := by
  have htoken : (m.scheduler.create id name).1 ≠ t := by
    rw [Scheduler.create_of_fresh hfresh]
    intro heq
    exact hne (by rw [← heq])
  simp [performCreate, Machine.spawn, Machine.setStatus, Machine.withScheduler, htoken]

/-- A new operation, created by the one in control. -/
theorem At.create {m : Machine σ β} {a id : OperationId} {next : Declared}
    (h : m.At (.granted a next)) {thread : Thread β} (hthread : thread ∈ m.threads)
    (hop : thread.token.operation = a) {name : String} {child : β} {cont : OperationId → β}
    (hstatus : thread.status = .parked (.create id name child cont)) :
    (m.performCreate thread.token id name child (cont id)).At (.holds a) := by
  have hcreates : m.Creates a id := ⟨_, hop ▸ h.1.threads.status?_eq hthread, by rw [hstatus]; rfl⟩
  obtain ⟨hfresh, hnumber⟩ := h.1.numbering.fresh a id hcreates
  obtain ⟨hcontrol, status, hfound, hacts⟩ := h.1.resume hthread hop (by rw [hstatus]; rfl)
    (fun hr => by rw [hstatus] at hr; cases hr) (.awaiting id (cont id)) rfl
  let m₁ := m.setStatus thread.token (.awaiting id (cont id))
  have hset := h.1.threads.status?_setStatus hthread (.awaiting id (cont id))
  -- nobody else is about to create this operation
  have hunclaimed : ∀ x, ¬ m₁.Creates x id := by
    rintro x ⟨found, hx, hchild⟩
    rw [hset, hop] at hx
    by_cases hxa : x = a
    · rw [if_pos hxa, Option.some.injEq] at hx
      rw [← hx] at hchild
      cases hchild
    · rw [if_neg hxa] at hx
      exact hxa (h.1.numbering.unique x a id ⟨found, hx, hchild⟩ hcreates)
  have hspawn := hcontrol.spawn hfresh hnumber hunclaimed name child
  have hne : a ≠ id := h.1.ne_of_fresh hfresh
  have hspawned : (m₁.spawn id name child).status? a = some status := by
    rw [status?_spawn (hcontrol.status?_eq_none hfresh) hfresh, if_neg hne]
    exact hfound
  have hat : (m₁.spawn id name child).At (.holds a) := ⟨hspawn, status, hspawned, hacts⟩
  rw [performCreate_eq hfresh (hop ▸ hne)]
  exact hat.same (sameControl_notify _ _)

/-- A received message. An operation that is enabled and about to receive has one. -/
theorem At.receive {m : Machine σ β} {a : OperationId} {next : Declared}
    (h : m.At (.granted a next)) {thread : Thread β} (hthread : thread ∈ m.threads)
    (hop : thread.token.operation = a) {again : β} {cont : Message → β}
    (hstatus : thread.status = .parked (.receive again cont)) :
    ∃ message rest, m.inbox a = message :: rest ∧
      (m.performReceive thread.token again cont).At (.holds a) := by
  obtain ⟨slot, -, henabled, hst⟩ := h.exists_slot hthread hop
  -- with an empty inbox the slot would be waiting and not enabled
  have hinbox : (m.inbox a).isEmpty = false := by
    have hwaiting := hst.waiting
    have henabled' := hst.enabled
    rw [henabled] at henabled'
    rw [hstatus] at hwaiting
    cases hempty : (m.inbox a).isEmpty with
    | false => rfl
    | true =>
        rw [hempty] at hwaiting
        simp [hwaiting, Status.receives] at henabled'
  cases hmessages : m.inbox a with
  | nil =>
      rw [hmessages] at hinbox
      cases hinbox
  | cons message rest =>
      obtain ⟨hcontrol, status, hrunning, hacts⟩ := h.1.resume hthread hop
        (by rw [hstatus]; rfl) (fun _ => hinbox) (.running (cont message)) rfl
      -- its thread no longer receives, so that the inbox may change
      have hbox := hcontrol.setInbox a (fun status' hstatus' => by
        rw [hrunning] at hstatus'
        obtain rfl := Option.some.inj hstatus'
        cases status with
        | parked pending => exact hacts.elim
        | _ => rfl) rest
      have hat : ((m.setStatus thread.token (.running (cont message))).setInbox a rest).At
          (.holds a) := ⟨hbox, status, hrunning, hacts⟩
      refine ⟨message, rest, rfl, ?_⟩
      simp only [performReceive, hop, hmessages]
      exact hat.same (sameControl_notify _ (.received a message.event))

/-- The operation that is to perform what it has declared does so. -/
theorem At.perform {m : Machine σ β} {a : OperationId} {next : Declared}
    (h : m.At (.granted a next)) {thread : Thread β} (hthread : thread ∈ m.threads)
    (hop : thread.token.operation = a) {pending : Pending β}
    (hstatus : thread.status = .parked pending) :
    Turn.Path (.granted a next) (m.performSaid thread.token pending) (.holds a) ∧
      (m.perform thread.token pending).At (.holds a) := by
  obtain ⟨slot, rfl, henabled, hst⟩ := h.exists_slot hthread hop
  have hrunning := h.1.running
  -- the slot has kept what the thread has declared
  have hposture := hst.posture
  rw [hstatus] at hposture
  have hresume : ∀ status : Status β, status.isBusy = true → thread.status.receives = false →
      (m.setStatus thread.token status).At (.holds a) := by
    intro status hbusy hreceives
    refine h.1.resume hthread hop (by rw [hstatus]; rfl) (fun hr => ?_) status hbusy
    rw [hreceives] at hr
    cases hr
  cases pending with
  | start body =>
      obtain ⟨hnext, hharness⟩ := hposture
      have hat := hresume (.running body) rfl (by rw [hstatus]; rfl)
      constructor
      · simp only [performSaid, hop, if_neg hharness, Scheduler.noticeSaid_of_running hrunning]
        rw [hnext]
        exact (Turn.Goes.started hharness).path
      · simp only [Machine.perform, hop, if_neg hharness]
        exact hat.same (sameControl_notify _ _)
  | create id name child cont =>
      have hnext : slot.next = ⟨.create, .operation, id, none⟩ := hposture
      constructor
      · simp only [performSaid, hop, Scheduler.noticeSaid_of_running hrunning]
        rw [hnext]
        exact Turn.Goes.created.path
      · exact h.create hthread hop hstatus
  | send target name value cont =>
      have hnext : slot.next = ⟨.send, .inbox, target, none⟩ := hposture
      constructor
      · simp only [performSaid, Scheduler.sendSaid_of_running hrunning, hop]
        rw [hnext]
        exact Turn.Goes.sent.path
      · have hat := hresume (.running cont) rfl (by rw [hstatus]; rfl)
        let message : Message := ⟨⟨m.nextMessage⟩, thread.token.operation, name, value⟩
        have hsent := hat.same (sameControl_send _ thread.token.operation target message.event
          (m.nextMessage + 1))
        simp only [Machine.perform, performSend]
        split
        · -- a message that is delivered changes what its target has to wait for
          obtain ⟨hsentControl, found, hfound, hacts⟩ := hsent
          exact ⟨hsentControl.deliver target message, found, hfound, hacts⟩
        · exact hsent
  | receive again cont =>
      have hnext : slot.next = ⟨.receive, .inbox, a, none⟩ := hposture
      obtain ⟨message, rest, hmessages, hat⟩ := h.receive hthread hop hstatus
      constructor
      · simp only [performSaid, hop, hmessages, Scheduler.noticeSaid_of_running hrunning]
        rw [hnext]
        exact Turn.Goes.received.path
      · exact hat
  | stop => exact hposture.elim

/-- An operation that has just declared what it is to perform, and is to do it at once. -/
theorem At.perform_at_once {m : Machine σ β} {t : Token} {pending : Pending β} {next : Declared}
    (h : (m.setStatus t pending.rest).At (.granted t.operation next))
    (hmem : ⟨t, pending.rest⟩ ∈ (m.setStatus t pending.rest).threads) :
    Turn.Path (.granted t.operation next) (m.performSaid t pending) (.holds t.operation) ∧
      (m.perform t pending).At (.holds t.operation) := by
  have hparked : pending.rest = .parked pending := by
    rcases rest_cases pending with ⟨-, hexited⟩ | ⟨hparked, -⟩
    · -- an operation at its end has nothing left to perform
      obtain ⟨slot, -, henabled, hst⟩ := h.exists_slot hmem rfl
      have hcompleted := hst.completed
      have hdisabled := hst.enabled
      simp only [hexited, Status.isExited] at hcompleted
      rw [henabled, hcompleted] at hdisabled
      cases hdisabled
    · exact hparked
  obtain ⟨hpath, hat⟩ := h.perform hmem rfl hparked
  rw [perform_setStatus] at hat
  exact ⟨hpath, hat⟩

/-! ## Coming to a scheduling point -/

/-- A thread comes to a scheduling point at which a monitor has been hot for too long. The strategy
is shown `choices` and answers with an operation, which does not get control. -/
def Overheats (p : Program β) (m : Machine σ β) (thread : Thread β) (choices : List Snapshot)
    (d : OperationId) (fair : Bool) (m' : Machine σ β) : Prop :=
  ∃ (body : β) (m₁ : Machine σ β) (pending : Pending β) (s : Scheduler σ),
    thread.status = .running body ∧
    m.approach thread.token body (p.act thread.token.operation body) = some (m₁, pending) ∧
    m₁.scheduler.yieldSaid thread.token (pending.declared thread.token.operation) =
      [.bound false, .operation choices thread.token.operation (.ok (some d)),
        .logged (.schedule d), .fairness fair] ∧
    m₁.scheduler.yield thread.token (pending.declared thread.token.operation).kind
      (pending.declared thread.token.operation).targetKind
      (pending.declared thread.token.operation).target = (.canceled, s) ∧
    s.running = false ∧ m' = m₁.arrive thread.token pending

/-- What can come of an arrival by the operation in control. -/
theorem yields_declare {m : Machine σ β} {t : Token} (hrun : m.scheduler.running = true)
    (hproper : m.scheduler.misuse? t = none) (pending : Pending β) :
    m.scheduler.Yields t.operation (pending.declared t.operation)
      (m.scheduler.yieldSaid t (pending.declared t.operation)) (m.declare t pending) := by
  have hyields := Scheduler.yields_of_proper hrun hproper (pending.declared t.operation).kind
    (pending.declared t.operation).targetKind (pending.declared t.operation).target
  rwa [Pending.declared_eta] at hyields

/-- How a step of a thread stops the run, with the dialogue of the step and what is left. -/
inductive Stops (p : Program β) (m : Machine σ β) (thread : Thread β) :
    List Exchange → Machine σ β → Prop
  /-- An assertion has failed. -/
  | asserted {m' : Machine σ β} {text : String} (stopped : m'.scheduler.running = false)
      (bug : m'.scheduler.bug = some ⟨.assertion, text⟩)
      (left : m'.Halted ∨ ∃ a, m'.Lingers a) : Stops p m thread [] m'
  /-- The strategy has failed. -/
  | failed {m' : Machine σ β} {e : Exchange} (halted : m'.Halted)
      (bug : m'.scheduler.bug = none) (error : m'.scheduler.error ≠ none)
      (request : e.isRequest = true) : Stops p m thread [.bound false, e] m'
  /-- The run is cut off at the bound. -/
  | cut {m' : Machine σ β} {fair : Bool} (halted : m'.Halted)
      (bug : ∀ bug ∈ m'.scheduler.bug, bug.kind = .stepBound) :
      Stops p m thread [.bound true, .fairness fair] m'
  /-- The strategy names no operation. -/
  | declined {m' : Machine σ β} {choices : List Snapshot} {a : OperationId} {fair : Bool}
      (halted : m'.Halted)
      (bug : ∀ bug ∈ m'.scheduler.bug,
        (bug.kind = .livelock ∨ ∃ monitor, bug.kind = .liveness monitor) ∧
          ∀ op ∈ choices, op.enabled = false)
      (cool : ¬m'.scheduler.IsOverheated) :
      Stops p m thread [.bound false, .operation choices a (.ok none), .fairness fair] m'
  /-- The strategy has no value for a choice. -/
  | undecided {m' : Machine σ β} {e : Exchange} (halted : m'.Halted)
      (bug : m'.scheduler.bug = none)
      (value : (∃ max, e = .boolean max (.ok none)) ∨ ∃ max, e = .integer max (.ok none)) :
      Stops p m thread [.bound false, e] m'
  /-- A monitor has been hot for too long when an operation is to be scheduled. -/
  | overheated {m' : Machine σ β} {choices : List Snapshot} {d : OperationId} {fair : Bool}
      (overheats : Overheats p m thread choices d fair m') (halted : m'.Halted)
      (bug : m'.scheduler.IsOverheated) :
      Stops p m thread
        [.bound false, .operation choices thread.token.operation (.ok (some d)),
          .logged (.schedule d), .fairness fair] m'

/-- What a thread in control does once control is handed over to an enabled operation: it performs
what is pending if it keeps control, and otherwise waits or, at its end, exits. -/
theorem InControl.suspend_handOver {m₁ : Machine σ β} {t : Token} {pending : Pending β}
    {s₁ : Scheduler σ} (h : ({ m₁ with scheduler := s₁ }.setStatus t pending.rest).InControl
      t.operation)
    (hmem : ⟨t, pending.rest⟩ ∈ ({ m₁ with scheduler := s₁ }.setStatus t pending.rest).threads)
    {slot : Slot} (hslot : s₁.slot? slot.id = some slot) (henabled : slot.enabled = true) :
    (slot.id = t.operation ∧ pending.rest = .parked pending ∧
        s₁.handOver t.operation slot.id = (.proceed, s₁) ∧
        ({ m₁ with scheduler := s₁ }.setStatus t pending.rest).At
          (.granted t.operation slot.next)) ∨
      (m₁.suspendSaid t pending (s₁.handOver t.operation slot.id) = [] ∧
        m₁.suspend t pending (s₁.handOver t.operation slot.id) =
          ({ m₁ with scheduler := s₁ }.setStatus t pending.rest).withScheduler
            (fun s => (s.handOver t.operation slot.id).2) ∧
        (m₁.suspend t pending (s₁.handOver t.operation slot.id)).At
          (.granted slot.id slot.next)) := by
  obtain ⟨slot', hslot', hst⟩ := h.standing_of_mem hmem
  have hfound : s₁.slot? t.operation = some slot' := hslot'
  have hgrant := h.grant (d := slot.id) (fun status hstatus => by
    rw [h.threads.status?_eq hmem] at hstatus
    rw [← Option.some.inj hstatus]
    exact yields_rest pending) hslot henabled
  by_cases hself : slot.id = t.operation
  · have hover : s₁.handOver t.operation slot.id = (.proceed, s₁) := by
      rw [hself]
      exact s₁.handOver_self t.operation
    refine Or.inl ⟨hself, ?_, hover, ?_⟩
    · rcases rest_cases pending with ⟨-, hexited⟩ | ⟨hparked, -⟩
      · -- an operation at its end is not enabled
        rw [hself, hfound] at hslot
        cases hslot
        have hcompleted : slot.completed = true := by
          rw [hst.completed, hexited]
          rfl
        have hdisabled := hst.enabled
        rw [henabled, hcompleted] at hdisabled
        cases hdisabled
      · exact hparked
    · have hsame : ({ m₁ with scheduler := s₁ }.setStatus t pending.rest).withScheduler
          (fun s => (s.handOver t.operation slot.id).2) =
            { m₁ with scheduler := s₁ }.setStatus t pending.rest := by
        show { { m₁ with scheduler := s₁ }.setStatus t pending.rest with
          scheduler := (s₁.handOver t.operation slot.id).2 } = _
        rw [hover]
        rfl
      rw [hsame, hself] at hgrant
      exact hgrant
  · have hresult : m₁.suspendSaid t pending (s₁.handOver t.operation slot.id) = [] ∧
        m₁.suspend t pending (s₁.handOver t.operation slot.id) =
          ({ m₁ with scheduler := s₁ }.setStatus t pending.rest).withScheduler
            (fun s => (s.handOver t.operation slot.id).2) := by
      rcases rest_cases pending with ⟨rfl, hexited⟩ | ⟨hparked, hexited⟩
      · -- an operation at its end goes on, to exit
        have hcompleted : slot'.completed = true := hst.completed
        have hover : s₁.handOver t.operation slot.id =
            (.proceed, s₁.passControl t.operation slot.id) := by
          simp [Scheduler.handOver_of_ne s₁ hself, hfound, hcompleted]
        rw [hover]
        refine ⟨rfl, ?_⟩
        show _ = { { m₁ with scheduler := s₁ }.setStatus t .exited with
          scheduler := (s₁.handOver t.operation slot.id).2 }
        rw [hover]
        rfl
      · have hcompleted : slot'.completed = false := hst.completed.trans hexited
        have hover : s₁.handOver t.operation slot.id =
            (.parked, s₁.passControl t.operation slot.id) := by
          simp [Scheduler.handOver_of_ne s₁ hself, hfound, hcompleted]
        rw [hover]
        refine ⟨rfl, ?_⟩
        show { m₁ with scheduler := s₁.passControl t.operation slot.id }.setStatus t
            (.parked pending) =
          { { m₁ with scheduler := s₁ }.setStatus t pending.rest with
            scheduler := (s₁.handOver t.operation slot.id).2 }
        rw [hover, ← hparked]
        rfl
    refine Or.inr ⟨hresult.1, hresult.2, ?_⟩
    rw [hresult.2]
    exact hgrant

/-- The thread in control has come to a scheduling point, and control is handed over. -/
theorem InControl.arrive_granted {m₁ : Machine σ β} {a : OperationId} {t : Token}
    {pending : Pending β} (h : (m₁.poised t pending).InControl a) (hop : t.operation = a)
    (hmem : ⟨t, pending.rest⟩ ∈ (m₁.poised t pending).threads) {s₁ : Scheduler σ}
    (hdeclares : m₁.scheduler.Declares a (pending.declared a) s₁) {op : Snapshot}
    (hop' : op ∈ s₁.snapshots) (henabled : op.enabled = true) :
    ∃ turn, Turn.Path (.granted op.id op.next)
        (m₁.suspendSaid t pending (s₁.handOver a op.id)) turn ∧
      (m₁.suspend t pending (s₁.handOver a op.id)).At turn := by
  subst hop
  -- the machine that waits for the reply
  let m₂ : Machine σ β := { m₁ with scheduler := s₁ }.setStatus t pending.rest
  have h₂ : m₂.InControl t.operation := h.same ⟨rfl, rfl, rfl, hdeclares.id, hdeclares.slots,
    hdeclares.scheduled, hdeclares.running, hdeclares.bug, hdeclares.error⟩
  have hmem₂ : ⟨t, pending.rest⟩ ∈ m₂.threads := hmem
  obtain ⟨slot, hslot, rfl⟩ := List.mem_map.mp hop'
  have hslot : m₂.scheduler.slot? slot.id = some slot := Scheduler.slot?_of_mem h₂.slots hslot
  show ∃ turn, Turn.Path (.granted slot.id slot.next)
      (m₁.suspendSaid t pending (s₁.handOver t.operation slot.id)) turn ∧
    (m₁.suspend t pending (s₁.handOver t.operation slot.id)).At turn
  rcases h₂.suspend_handOver hmem₂ hslot henabled with ⟨hself, -, hover, hat⟩ | ⟨hsaid, -, hat⟩
  · -- the operation keeps control and performs at once
    rw [hover, hself]
    exact ⟨.holds t.operation, At.perform_at_once hat hmem₂⟩
  · rw [hsaid]
    exact ⟨.granted slot.id slot.next, .nil, hat⟩

/-- The thread in control comes to a scheduling point. -/
theorem InControl.arrive {p : Program β} {m m₁ : Machine σ β} {a : OperationId}
    (h : m.InControl a) {thread : Thread β} (hthread : thread ∈ m.threads) {body : β}
    (hstatus : thread.status = .running body) {pending : Pending β}
    (happ : m.approach thread.token body (p.act thread.token.operation body) = some (m₁, pending))
    (hwrap : m.nextOperation.toNat + 1 < UInt64.size) :
    (∃ turn, Turn.Path (.holds a) (m₁.arriveSaid thread.token pending) turn ∧
      (m₁.arrive thread.token pending).At turn) ∨
      Stops p m thread (m₁.arriveSaid thread.token pending) (m₁.arrive thread.token pending) := by
  have hop := h.running_eq hthread hstatus
  have hpoised := h.poise hthread hstatus happ hwrap
  have hmem : ⟨thread.token, pending.rest⟩ ∈ (m₁.poised thread.token pending).threads :=
    List.mem_map.mpr ⟨thread, threads_approach happ ▸ hthread, if_pos rfl⟩
  have hproper : m₁.scheduler.misuse? thread.token = none := hpoised.misuse?_poised hmem hop
  have hids : (m₁.poised thread.token pending).scheduler.slots.map Slot.id =
      m₁.scheduler.slots.map Slot.id := ids_poised m₁ thread.token pending
  -- whatever stops the scheduler leaves a halted machine
  have hhalt : ∀ {s s' : Scheduler σ}, s.id = m₁.scheduler.id →
      s.slots.map Slot.id = m₁.scheduler.slots.map Slot.id → s.Stopped s' →
        ({ m₁ with scheduler := s' }.setStatus thread.token .exited).Halted :=
    hpoised.halt_poised hmem hop
  have hdeclared : ∀ {s₁ : Scheduler σ}, m₁.scheduler.Declares thread.token.operation
      (pending.declared thread.token.operation) s₁ →
        s₁.slots.map Slot.id = m₁.scheduler.slots.map Slot.id := by
    intro s₁ hdeclares
    rw [hdeclares.slots]
    exact hids
  have hrun : m₁.scheduler.running = true := hpoised.running
  have hyields := yields_declare hrun hproper pending
  rw [arriveSaid_eq, arrive_eq]
  generalize hsaid : m₁.scheduler.yieldSaid thread.token
    (pending.declared thread.token.operation) = l,
    hyield : m₁.declare thread.token pending = r at hyields ⊢
  cases hyields with
  | cut =>
      refine Or.inr (.cut (hhalt rfl rfl (Scheduler.stopped_cutOff m₁.scheduler)) ?_)
      exact Scheduler.bug_cutOff hpoised.bug
  | @failed s₁ answer error hdeclares =>
      exact Or.inr (.failed (hhalt hdeclares.id (hdeclared hdeclares)
        (Scheduler.stopped_abort s₁ error)) (hdeclares.bug.trans hpoised.bug)
        (Scheduler.error_abort s₁ error) rfl)
  | @declined s₁ fair hdeclares =>
      have hfirst : s₁.bug = none := hdeclares.bug.trans hpoised.bug
      exact Or.inr (.declined (hhalt hdeclares.id (hdeclared hdeclares)
        (Scheduler.stopped_exhaust s₁ _)) (Scheduler.bug_exhaust hfirst _)
        (Scheduler.not_isOverheated_exhaust hfirst _))
  | @overheated s₁ d fair monitor hdeclares hlegal =>
      let s₂ := s₁.fail (.liveness monitor) (Scheduler.overheated monitor)
      have hstopped : s₁.Stopped s₂ := Scheduler.stopped_fail s₁ _ _
      have hhalted := hhalt hdeclares.id (hdeclared hdeclares) hstopped
      have harrive : m₁.arrive thread.token pending =
          m₁.suspend thread.token pending (.canceled, s₂) := by
        rw [arrive_eq, hyield]
      exact Or.inr (.overheated
        ⟨body, m₁, pending, _, hstatus, happ, hsaid, hyield, hstopped.running, harrive.symm⟩
        hhalted ⟨monitor, Scheduler.bug_fail (hdeclares.bug.trans hpoised.bug) _ _⟩)
  | @granted s₁ op fair hdeclares hmemop henabled =>
      left
      -- what the named operation has declared is told by the list shown, as its names are distinct
      have hdistinct : (s₁.snapshots.map Snapshot.id).Nodup := by
        rw [Scheduler.ids_snapshots, hdeclares.slots]
        exact hpoised.slots
      rw [hop] at hdeclares ⊢
      obtain ⟨turn, hpath, hat⟩ := hpoised.arrive_granted hop hmem hdeclares hmemop henabled
      refine ⟨turn, ?_, hat⟩
      exact .cons .unbound (.cons (.grants hdistinct hmemop henabled)
        (.cons .logged (.cons .fairness hpath)))

/-- The thread in control asks for a value. -/
theorem InControl.choose {p : Program β} {m : Machine σ β} {a : OperationId} (h : m.InControl a)
    {thread : Thread β} (hthread : thread ∈ m.threads) {body : β}
    (hstatus : thread.status = .running body) {α : Type} {exchange : Answer α → Exchange}
    {toChoice : α → Choice} {l : List Exchange} {r : Option α × Scheduler σ}
    (hdecides : m.scheduler.Decides thread.token.operation exchange toChoice l r)
    (hvalue : (∃ max, exchange (.ok none) = .boolean max (.ok none)) ∨
      ∃ max, exchange (.ok none) = .integer max (.ok none))
    (hrequest : ∀ answer, (exchange answer).isRequest = true)
    (hgoes : ∀ value, (exchange (.ok (some value))).Legal →
      Turn.Goes (.holds a) (exchange (.ok (some value))) (.decided a (toChoice value)))
    (next : α → β) :
    (Turn.Path (.holds a) l (.holds a) ∧ (m.continueWith thread.token next r).At (.holds a)) ∨
      Stops p m thread l (m.continueWith thread.token next r) := by
  have hop := h.running_eq hthread hstatus
  have hhalt : ∀ {s s' : Scheduler σ}, s.id = m.scheduler.id →
      s.slots.map Slot.id = m.scheduler.slots.map Slot.id → s.Stopped s' →
        ({ m with scheduler := s' }.setStatus thread.token .exited).Halted :=
    fun hid hids hstopped => h.solo.halt hthread hop rfl hid hids hstopped
  cases hdecides with
  | cut =>
      refine Or.inr (.cut (hhalt rfl rfl (Scheduler.stopped_cutOff m.scheduler)) ?_)
      exact Scheduler.bug_cutOff h.bug
  | @failed s₁ answer error hsame =>
      exact Or.inr (.failed (hhalt hsame.id (by rw [hsame.slots])
        (Scheduler.stopped_abort s₁ error)) (hsame.bug.trans h.bug)
        (Scheduler.error_abort s₁ error) (hrequest answer))
  | @undecided s₁ hsame =>
      refine Or.inr (.undecided (hhalt hsame.id (by rw [hsame.slots])
        (Scheduler.stopped_explored s₁)) ?_ hvalue)
      exact hsame.bug.trans h.bug
  | @decided s₁ value d hsame hlegal =>
      -- the thread goes on with the value
      left
      have hat := h.resume hthread hop (by rw [hstatus]; rfl)
        (fun hr => by rw [hstatus] at hr; cases hr) (.running (next value)) rfl
      constructor
      · rw [hop]
        exact .cons .unbound (.cons (hgoes value hlegal) (.cons .logged (.cons .chosen .nil)))
      · exact hat.same ⟨rfl, rfl, rfl, hsame.id, hsame.slots, hsame.scheduled, hsame.running,
          hsame.bug, hsame.error⟩

/-! ## Steps -/

/-- One action of the thread in control. -/
theorem InControl.execute {p : Program β} {m : Machine σ β} {a : OperationId} (h : m.InControl a)
    {thread : Thread β} (hthread : thread ∈ m.threads) {body : β}
    (hstatus : thread.status = .running body)
    (hwrap : m.nextOperation.toNat + 1 < UInt64.size) :
    let action := p.act thread.token.operation body
    (∃ turn, Turn.Path (.holds a) (m.executeSaid thread.token body action) turn ∧
      (m.execute thread.token body action).At turn) ∨
      Stops p m thread (m.executeSaid thread.token body action)
        (m.execute thread.token body action) := by
  intro action
  have hop := h.running_eq hthread hstatus
  have hproper : m.scheduler.misuse? thread.token = none := by
    obtain ⟨slot, hslot, -⟩ := h.standing_of_mem hthread
    refine Scheduler.misuse?_eq_none (h.threads.own _ hthread) ?_ (hop ▸ h.scheduled)
    rw [hslot]
    exact Option.some_ne_none slot
  have hresume : ∀ next : β, (m.setStatus thread.token (.running next)).At (.holds a) :=
    fun next => h.resume hthread hop (by rw [hstatus]; rfl)
      (fun hr => by rw [hstatus] at hr; cases hr) _ rfl
  have hact := ActionStep.of_execute m thread.token body action
  have haction : action = p.act thread.token.operation body := rfl
  clear_value action
  generalize m.executeSaid thread.token body action = l,
    m.execute thread.token body action = m' at hact ⊢
  cases hact with
  | arrives happ => exact h.arrive hthread hstatus (haction ▸ happ) hwrap
  | flips fairness next =>
      have hchoose := h.choose (p := p) hthread hstatus
        (Scheduler.decides_nextBoolean h.running hproper 2 fairness) (Or.inl ⟨2, rfl⟩)
        (fun _ => rfl) (fun _ _ => .flips) next
      exact hchoose.imp_left fun hpath => ⟨.holds a, hpath⟩
  | rolls max next =>
      have hchoose := h.choose (p := p) hthread hstatus
        (Scheduler.decides_nextInteger h.running hproper max) (Or.inr ⟨max, rfl⟩)
        (fun _ => rfl) (fun n hlegal => .rolls (by
          obtain ⟨n?, heq, hrange⟩ := hlegal
          cases heq
          exact hrange n rfl)) next
      exact hchoose.imp_left fun hpath => ⟨.holds a, hpath⟩
  | tells name hot next =>
      refine Or.inl ⟨.holds a, ?_, ?_⟩
      · simp only [Scheduler.noticeSaid_of_running h.running, hop]
        exact Turn.Goes.monitored.path
      · exact (hresume next).same
          (sameControl_notify _ (.monitored name thread.token.operation hot))
  | logs value next =>
      exact Or.inl ⟨.holds a, .nil,
        (hresume next).same ⟨rfl, rfl, rfl, rfl, rfl, rfl, rfl, rfl, rfl⟩⟩
  | hides next => exact Or.inl ⟨.holds a, .nil, hresume next⟩
  | fails message =>
      -- a failed assertion cancels all, a reported one leaves the thread to go on alone
      exact Or.inr (.asserted rfl (Scheduler.bug_fail h.bug .assertion message)
        (Or.inl (h.solo.halt hthread hop rfl rfl rfl (Scheduler.stopped_fail m.scheduler _ _))))
  | reports message next =>
      exact Or.inr (.asserted rfl (Scheduler.bug_reportAssertion h.bug message)
        (Or.inr ⟨a, h.linger hthread hop message next⟩))

/-- A thread that starts waits for its turn, or performs its start if it is its turn already. -/
theorem At.start {m : Machine σ β} {turn : Turn} (h : m.At turn) {thread : Thread β}
    (hthread : thread ∈ m.threads) {body : β} (hstatus : thread.status = .starting body) :
    let reply := m.scheduler.start thread.token
    ∃ turn', Turn.Path turn (m.suspendSaid thread.token (.start body) reply) turn' ∧
      (m.suspend thread.token (.start body) reply).At turn' := by
  intro reply
  obtain ⟨a, hcontrol⟩ := h.inControl
  obtain ⟨slot, hslot, hst⟩ := hcontrol.standing_of_mem hthread
  have hfound := hcontrol.threads.status?_eq hthread
  rw [hstatus] at hst hfound
  let start : Slot → Slot := fun slot => { slot with handlerRunning := true }
  rw [show reply = _ from hcontrol.reply_start hthread hstatus]
  let m₁ := m.withScheduler (·.updateSlot thread.token.operation start)
  by_cases hharness : thread.token.operation = .harness
  · -- the harness is in control from the start
    have hop : thread.token.operation = a := hst.posture.2 hharness
    have hrun : (m₁.setStatus thread.token (.running body)).InControl a :=
      hcontrol.setStatus_updateSlot hthread (f := start) (fun _ => rfl)
        (hcontrol.numbering.setStatus hcontrol.threads hthread _ rfl) fun slot hst => by
          rw [hstatus] at hst
          exact ⟨hst.active, hst.completed, hst.waiting, hst.enabled, hop⟩
    have hset : (m₁.setStatus thread.token (.running body)).status? a = some (.running body) :=
      (hcontrol.threads.status?_setStatus hthread (.running body) a).trans (if_pos hop.symm)
    rw [hop] at hfound
    rcases h.turn_cases hcontrol hfound with ⟨rfl, -⟩ | ⟨_, -, -, -, hwaits⟩
    · rw [if_pos hop]
      refine ⟨.holds a, ?_, ?_⟩
      · simp only [suspendSaid, performSaid, if_pos hharness]
        exact .nil
      · simp only [suspend, Machine.perform, if_pos hharness]
        exact ⟨hrun, _, hset, trivial⟩
    · exact absurd (hop.symm.trans hharness) hwaits
  · let m₂ := m₁.setStatus thread.token (.parked (.start body))
    have hregistered : m₂.InControl a := hcontrol.register hthread hstatus hharness
    have hstatus₂ : ∀ x, m₂.status? x =
        if x = thread.token.operation then some (.parked (.start body)) else m.status? x :=
      hcontrol.threads.status?_setStatus hthread (.parked (.start body))
    have hslot₂ : ∀ x, m₂.scheduler.slot? x =
        if x = thread.token.operation then (m.scheduler.slot? x).map start
        else m.scheduler.slot? x :=
      fun x => Scheduler.slot?_updateSlot m.scheduler thread.token.operation x fun _ => rfl
    by_cases hop : thread.token.operation = a
    · -- it is its turn, so that it performs its start at once
      subst hop
      obtain ⟨next, rfl, hat⟩ := h.register hcontrol hthread hstatus rfl hharness
      have hmem₂ : ⟨thread.token, .parked (.start body)⟩ ∈ m₂.threads :=
        List.mem_map.mpr ⟨thread, hthread, if_pos rfl⟩
      have hperform : Turn.Path (.granted thread.token.operation next)
          (m₁.performSaid thread.token (.start body)) (.holds thread.token.operation) ∧
            (m₁.perform thread.token (.start body)).At (.holds thread.token.operation) :=
        At.perform_at_once hat hmem₂
      rw [if_pos rfl]
      exact ⟨.holds thread.token.operation, hperform⟩
    · -- it waits, and nothing changes for the operation in control
      rw [if_neg hop]
      exact ⟨turn, .nil, h.keep hcontrol hregistered ((hstatus₂ a).trans (if_neg (Ne.symm hop)))
        ((hslot₂ a).trans (if_neg (Ne.symm hop)))⟩

/-- Every step of a thread either leads to another turn, with a dialogue that is a path between the
two, or stops the run. -/
theorem at_stepThread {p : Program β} {m m' : Machine σ β} {turn : Turn} (h : m.At turn)
    (hwrap : m.nextOperation.toNat + 1 < UInt64.size) {thread : Thread β}
    (hthread : thread ∈ m.threads) (hstep : stepThread p m thread = some m') :
    (∃ turn', Turn.Path turn (threadSaid p m thread) turn' ∧ m'.At turn') ∨
      ((∃ a, turn = .holds a) ∧ Stops p m thread (threadSaid p m thread) m') := by
  obtain ⟨a, hcontrol⟩ := h.inControl
  obtain ⟨slot, hslot, hst⟩ := hcontrol.standing_of_mem hthread
  have hfound := hcontrol.threads.status?_eq hthread
  have hstep := ThreadStep.of_stepThread hstep
  generalize threadSaid p m thread = l at hstep ⊢
  cases hstep with
  | starts t body => exact Or.inl (h.start hthread rfl)
  | acts t body =>
      have hop : t.operation = a := hcontrol.running_eq hthread rfl
      rw [hop] at hfound
      rcases h.turn_cases hcontrol hfound with ⟨rfl, -⟩ | ⟨_, -, -, -, hwaits⟩
      · exact (hcontrol.execute hthread rfl hwrap).imp_right fun hstops => ⟨⟨a, rfl⟩, hstops⟩
      · exact hwaits.elim
  | performs wake =>
      rcases h.wake_parked hcontrol hthread rfl with ⟨hop, ⟨next, rfl⟩, -⟩ | hparked
      · exact Or.inl ⟨.holds a, h.perform hthread hop rfl⟩
      · rw [hparked] at wake
        cases wake
  | cancels wake =>
      -- a run that goes on cancels nobody
      rcases h.wake_parked hcontrol hthread rfl with ⟨-, -, hwake⟩ | hparked
      · rw [hwake] at wake
        cases wake
      · rw [hparked] at wake
        cases wake
  | @resumes t child next ready =>
      -- the child is known, and the creator goes on
      have hop : t.operation = a := hst.posture
      rw [hop] at hfound
      rcases h.turn_cases hcontrol hfound with ⟨rfl, -⟩ | ⟨_, -, -, -, hwaits⟩
      · exact Or.inl ⟨.holds a, .nil, hcontrol.resume hthread hop rfl nofun _ rfl⟩
      · exact hwaits.elim

end Machine

end Interleave
