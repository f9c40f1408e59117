import Interleave.Proofs.Program.Lookup
import Interleave.Proofs.Program.Turns

/-!
# Who is in control

While a run goes on exactly one operation is in control, and the slots tell what the threads do:
`Standing` says for one operation that its slot is active if it is in control, completed if its
thread has exited, waiting if the thread is at a receive and its inbox is empty, and disabled in
these two cases only. `Machine.InControl` says this of all operations of a machine at once, together
with the freshness of the identities that are handed out (`Machine.Numbering`).

Every step of a thread keeps the invariant as long as the run goes on and makes a dialogue in which
the operations take turns (`Machine.at_stepThread`).
-/

namespace Interleave

variable {σ β : Type}

namespace Status

/-- Whether the thread is at its end. -/
def isExited : Status β → Bool
  | .exited => true
  | _ => false

/-- Whether the thread is parked at a receive. -/
def receives : Status β → Bool
  | .parked (.receive _ _) => true
  | _ => false

/-- Whether the thread has come to a scheduling point or to its end. -/
def yields : Status β → Bool
  | .parked _ => true
  | .exited => true
  | _ => false

/-- The operation that the thread is to create once it is given control. -/
def child? : Status β → Option OperationId
  | .parked (.create id _ _ _) => some id
  | _ => none

/-- What a status asks of the declaration in the slot and of control. -/
def Posture (x : OperationId) (held : Prop) (next : Declared) : Status β → Prop
  | .starting _ => next = .start x ∧ (x = .harness → held)
  | .running _ => held
  | .awaiting _ _ => held
  | .parked .stop => False
  | .parked (.start _) => next = .start x ∧ x ≠ .harness
  | .parked pending => next = pending.declared x
  | .exited => True

theorem Posture.mono {x : OperationId} {held held' : Prop} {next : Declared} {status : Status β}
    (h : status.Posture x held next) (himp : held → held') : status.Posture x held' next := by
  cases status with
  | starting body => exact ⟨h.1, fun hx => himp (h.2 hx)⟩
  | running body => exact himp h
  | awaiting child body => exact himp h
  | parked pending => cases pending <;> exact h
  | exited => trivial

theorem Posture.of_yields {x : OperationId} {held held' : Prop} {next : Declared}
    {status : Status β} (h : status.Posture x held next) (hyields : status.yields = true) :
    status.Posture x held' next := by
  cases status with
  | parked pending => cases pending <;> exact h
  | exited => trivial
  | _ => cases hyields

end Status

/-- The status in which a thread waits for the reply at a scheduling point. -/
def Pending.rest : Pending β → Status β
  | .stop => .exited
  | pending => .parked pending

/-- How thread, slot and inbox of an operation stand to each other. -/
structure Standing (x : OperationId) (held : Prop) (inbox : List Message) (status : Status β)
    (slot : Slot) : Prop where
  active : slot.active = true ↔ held
  completed : slot.completed = status.isExited
  waiting : slot.waiting = (status.receives && inbox.isEmpty)
  enabled : slot.enabled = !(slot.completed || slot.waiting)
  posture : status.Posture x held slot.next

theorem Status.isExited_of_receives {status : Status β} (h : status.receives = true) :
    status.isExited = false := by
  cases status with
  | exited => cases h
  | _ => rfl

/-- A message that arrives leaves no reason to wait. -/
theorem Standing.unblock {x : OperationId} {held : Prop} {inbox : List Message}
    {status : Status β} {slot : Slot} (h : Standing x held inbox status slot)
    (message : Message) : Standing x held (inbox ++ [message]) status slot.unblock := by
  have hempty : (inbox ++ [message]).isEmpty = false := by simp
  have hwaiting := h.waiting
  unfold Slot.unblock
  cases hw : slot.waiting with
  | false =>
      refine ⟨h.active, h.completed, ?_, h.enabled, h.posture⟩
      rw [if_neg Bool.false_ne_true, hempty, Bool.and_false]
      exact hw
  | true =>
      -- who waits is at a receive and has not exited, so that nothing else disables it
      rw [hw] at hwaiting
      have hreceives : status.receives = true := (Bool.and_eq_true_iff.mp hwaiting.symm).1
      have hcompleted : slot.completed = false := by
        rw [h.completed]
        exact Status.isExited_of_receives hreceives
      refine ⟨h.active, h.completed, ?_, ?_, h.posture⟩
      · rw [if_pos rfl, hempty, Bool.and_false]
      · simp [hcompleted]

theorem Standing.congr {x : OperationId} {held held' : Prop} {inbox : List Message}
    {status : Status β} {slot : Slot} (h : Standing x held inbox status slot)
    (hiff : held ↔ held') : Standing x held' inbox status slot :=
  ⟨h.active.trans hiff, h.completed, h.waiting, h.enabled, h.posture.mono hiff.mp⟩

/-- An operation that loses control. -/
theorem Standing.idle {x : OperationId} {held : Prop} {inbox : List Message} {status : Status β}
    {slot : Slot} (h : Standing x held inbox status slot) (hyields : status.yields = true) :
    Standing x False inbox status { slot with active := false } :=
  ⟨by simp, h.completed, h.waiting, h.enabled, h.posture.of_yields hyields⟩

/-- An operation that gets control. -/
theorem Standing.wake {x : OperationId} {held : Prop} {inbox : List Message} {status : Status β}
    {slot : Slot} (h : Standing x held inbox status slot) :
    Standing x True inbox status { slot with active := true } :=
  ⟨by simp, h.completed, h.waiting, h.enabled, h.posture.mono fun _ => trivial⟩

namespace Machine

/-- The operation either does not exist or stands in order, with `a` in control. -/
def Stands (m : Machine σ β) (a x : OperationId) : Prop :=
  (m.status? x = none ∧ m.scheduler.slot? x = none ∧ x ≠ a) ∨
    ∃ status slot, m.status? x = some status ∧ m.scheduler.slot? x = some slot ∧
      Standing x (x = a) (m.inbox x) status slot

/-- The operation is about to create another one. -/
def Creates (m : Machine σ β) (x child : OperationId) : Prop :=
  ∃ status, m.status? x = some status ∧ status.child? = some child

/-- Identities are handed out in order and to one creation each. -/
structure Numbering (m : Machine σ β) : Prop where
  harness : m.scheduler.slot? .harness ≠ none
  registered : ∀ x, m.scheduler.slot? x ≠ none → x.value.toNat < m.nextOperation.toNat
  fresh : ∀ x child, m.Creates x child →
    m.scheduler.slot? child = none ∧ child.value.toNat < m.nextOperation.toNat
  unique : ∀ x y child, m.Creates x child → m.Creates y child → x = y

/-- The run goes on and the operation `a` is in control. -/
structure InControl (m : Machine σ β) (a : OperationId) : Prop where
  threads : m.OwnThreads
  slots : (m.scheduler.slots.map Slot.id).Nodup
  running : m.scheduler.running = true
  bug : m.scheduler.bug = none
  error : m.scheduler.error = none
  scheduled : m.scheduler.scheduled = some a
  stands : ∀ x, m.Stands a x
  numbering : m.Numbering

theorem Numbering.keep {m m' : Machine σ β} (h : m.Numbering)
    (hcreates : ∀ x child, m'.Creates x child → m.Creates x child)
    (hslots : ∀ x, m'.scheduler.slot? x = none ↔ m.scheduler.slot? x = none)
    (hnext : m.nextOperation.toNat ≤ m'.nextOperation.toNat) : m'.Numbering where
  harness hnone := h.harness ((hslots .harness).mp hnone)
  registered x hx := by
    have := h.registered x fun hnone => hx ((hslots x).mpr hnone)
    omega
  fresh x child hchild := by
    obtain ⟨hnone, hlt⟩ := h.fresh x child (hcreates x child hchild)
    exact ⟨(hslots child).mpr hnone, by omega⟩
  unique x y child hx hy := h.unique x y child (hcreates x child hx) (hcreates y child hy)

theorem InControl.stands_self {m : Machine σ β} {a : OperationId} (h : m.InControl a) :
    ∃ status slot, m.status? a = some status ∧ m.scheduler.slot? a = some slot ∧
      Standing a (a = a) (m.inbox a) status slot := by
  rcases h.stands a with ⟨-, -, hne⟩ | hstands
  · exact absurd rfl hne
  · exact hstands

/-- Every thread has a slot, and the two stand in order. -/
theorem InControl.standing_of_mem {m : Machine σ β} {a : OperationId} (h : m.InControl a)
    {thread : Thread β} (hthread : thread ∈ m.threads) :
    ∃ slot, m.scheduler.slot? thread.token.operation = some slot ∧
      Standing thread.token.operation (thread.token.operation = a)
        (m.inbox thread.token.operation) thread.status slot := by
  have hstatus := h.threads.status?_eq hthread
  rcases h.stands thread.token.operation with ⟨hnone, -, -⟩ | ⟨status, slot, hfound, hslot, hst⟩
  · rw [hstatus] at hnone
    cases hnone
  · rw [hstatus] at hfound
    cases hfound
    exact ⟨slot, hslot, hst⟩

/-- An operation without a slot is not in control. -/
theorem InControl.ne_of_fresh {m : Machine σ β} {a id : OperationId} (h : m.InControl a)
    (hfresh : m.scheduler.slot? id = none) : a ≠ id := by
  rintro rfl
  obtain ⟨_, slot, -, hslot, -⟩ := h.stands_self
  rw [hfresh] at hslot
  cases hslot

/-- An operation without a slot has no thread. -/
theorem InControl.status?_eq_none {m : Machine σ β} {a id : OperationId} (h : m.InControl a)
    (hfresh : m.scheduler.slot? id = none) : m.status? id = none := by
  rcases h.stands id with ⟨hnone, -, -⟩ | ⟨_, slot, -, hslot, -⟩
  · exact hnone
  · rw [hfresh] at hslot
    cases hslot

/-- Only what the invariant speaks of matters to it. -/
structure SameControl (m m' : Machine σ β) : Prop where
  threads : m'.threads = m.threads
  inboxes : m'.inboxes = m.inboxes
  nextOperation : m'.nextOperation = m.nextOperation
  id : m'.scheduler.id = m.scheduler.id
  slots : m'.scheduler.slots = m.scheduler.slots
  scheduled : m'.scheduler.scheduled = m.scheduler.scheduled
  running : m'.scheduler.running = m.scheduler.running
  bug : m'.scheduler.bug = m.scheduler.bug
  error : m'.scheduler.error = m.scheduler.error

theorem SameControl.status? {m m' : Machine σ β} (h : m.SameControl m') (x : OperationId) :
    m'.status? x = m.status? x := by
  simp only [Machine.status?, h.threads]

theorem SameControl.slot? {m m' : Machine σ β} (h : m.SameControl m') (x : OperationId) :
    m'.scheduler.slot? x = m.scheduler.slot? x := by
  simp only [Scheduler.slot?, h.slots]

theorem SameControl.inbox {m m' : Machine σ β} (h : m.SameControl m') (x : OperationId) :
    m'.inbox x = m.inbox x := by
  simp only [Machine.inbox, h.inboxes]

theorem InControl.same {m m' : Machine σ β} {a : OperationId} (h : m.InControl a)
    (hsame : m.SameControl m') : m'.InControl a where
  threads := h.threads.congr hsame.threads hsame.id
  slots := by rw [hsame.slots]; exact h.slots
  running := by rw [hsame.running]; exact h.running
  bug := by rw [hsame.bug]; exact h.bug
  error := by rw [hsame.error]; exact h.error
  scheduled := by rw [hsame.scheduled]; exact h.scheduled
  stands x := by
    simp only [Stands, hsame.status?, hsame.slot?, hsame.inbox]
    exact h.stands x
  numbering := by
    refine h.numbering.keep (fun x child hc => ?_) (fun x => by rw [hsame.slot?])
      (Nat.le_of_eq (by rw [hsame.nextOperation]))
    simpa only [Creates, hsame.status?] using hc

/-! ## Changing one operation -/

/-- The two machines differ in nothing but one operation and what the invariant does not speak
of. -/
structure Revises (m m' : Machine σ β) (x₀ : OperationId) : Prop where
  threads : m'.OwnThreads
  slots : (m'.scheduler.slots.map Slot.id).Nodup
  running : m'.scheduler.running = m.scheduler.running
  bug : m'.scheduler.bug = m.scheduler.bug
  error : m'.scheduler.error = m.scheduler.error
  scheduled : m'.scheduler.scheduled = m.scheduler.scheduled
  status? : ∀ x, x ≠ x₀ → m'.status? x = m.status? x
  slot? : ∀ x, x ≠ x₀ → m'.scheduler.slot? x = m.scheduler.slot? x
  inbox : ∀ x, x ≠ x₀ → m'.inbox x = m.inbox x

theorem InControl.revise {m m' : Machine σ β} {a : OperationId} (h : m.InControl a)
    (x₀ : OperationId) (hrevises : m.Revises m' x₀) (hstands : m'.Stands a x₀)
    (hnumbering : m'.Numbering) :
    m'.InControl a where
  threads := hrevises.threads
  slots := hrevises.slots
  running := hrevises.running.trans h.running
  bug := hrevises.bug.trans h.bug
  error := hrevises.error.trans h.error
  scheduled := hrevises.scheduled.trans h.scheduled
  stands x := by
    by_cases hx : x = x₀
    · rw [hx]
      exact hstands
    · simp only [Stands, hrevises.status? x hx, hrevises.slot? x hx, hrevises.inbox x hx]
      exact h.stands x
  numbering := hnumbering

/-- A thread that is set to a status in which it creates nothing leaves the numbering alone. -/
theorem Numbering.setStatus {m : Machine σ β} (h : m.Numbering) (hthreads : m.OwnThreads)
    {thread : Thread β} (hthread : thread ∈ m.threads) (status : Status β)
    (hchild : status.child? = none) : (m.setStatus thread.token status).Numbering := by
  refine h.keep (fun x child hc => ?_) (fun x => Iff.rfl) (Nat.le_refl _)
  obtain ⟨found, hfound, hc⟩ := hc
  rw [hthreads.status?_setStatus hthread] at hfound
  by_cases hx : x = thread.token.operation
  · rw [if_pos hx, Option.some.injEq] at hfound
    rw [← hfound, hchild] at hc
    cases hc
  · rw [if_neg hx] at hfound
    exact ⟨found, hfound, hc⟩

/-- A thread and its slot that change together. -/
theorem InControl.setStatus_updateSlot {m : Machine σ β} {a : OperationId} (h : m.InControl a)
    {thread : Thread β} (hthread : thread ∈ m.threads) {status : Status β} {f : Slot → Slot}
    (hf : ∀ slot, (f slot).id = slot.id)
    (hnumbering : (m.setStatus thread.token status).Numbering)
    (hstanding : ∀ slot, Standing thread.token.operation (thread.token.operation = a)
        (m.inbox thread.token.operation) thread.status slot →
      Standing thread.token.operation (thread.token.operation = a)
        (m.inbox thread.token.operation) status (f slot)) :
    ((m.withScheduler (·.updateSlot thread.token.operation f)).setStatus thread.token
      status).InControl a := by
  let x₀ := thread.token.operation
  have hslot : ∀ x, (m.scheduler.updateSlot x₀ f).slot? x =
      if x = x₀ then (m.scheduler.slot? x).map f else m.scheduler.slot? x :=
    fun x => Scheduler.slot?_updateSlot m.scheduler x₀ x hf
  have hstatus := h.threads.status?_setStatus hthread status
  obtain ⟨slot, hfound, hst⟩ := h.standing_of_mem hthread
  refine h.revise x₀ ⟨(h.threads.setStatus thread.token status).congr rfl rfl, ?_, rfl,
    rfl, rfl, rfl, fun x hx => ?_, fun x hx => ?_, fun x _ => rfl⟩ ?_ ?_
  · exact (Scheduler.quiet_updateSlot m.scheduler x₀ hf).distinct h.slots
  · exact (hstatus x).trans (if_neg hx)
  · exact (hslot x).trans (if_neg hx)
  · refine Or.inr ⟨status, f slot, ?_, ?_, hstanding slot hst⟩
    · exact (hstatus x₀).trans (if_pos rfl)
    · refine (hslot x₀).trans ?_
      rw [if_pos rfl, hfound]
      rfl
  · refine hnumbering.keep (fun x child hc => hc) (fun x => ?_) (Nat.le_refl _)
    show (m.scheduler.updateSlot x₀ f).slot? x = none ↔ m.scheduler.slot? x = none
    rw [hslot x]
    by_cases hx : x = x₀
    · simp [hx]
    · simp [hx]

/-- A thread that changes while its slot stays. -/
theorem InControl.setStatus {m : Machine σ β} {a : OperationId} (h : m.InControl a)
    {thread : Thread β} (hthread : thread ∈ m.threads) {status : Status β}
    (hchild : status.child? = none)
    (hstanding : ∀ slot, Standing thread.token.operation (thread.token.operation = a)
        (m.inbox thread.token.operation) thread.status slot →
      Standing thread.token.operation (thread.token.operation = a)
        (m.inbox thread.token.operation) status slot) :
    (m.setStatus thread.token status).InControl a := by
  have hslots : (m.scheduler.updateSlot thread.token.operation fun slot => slot).slots =
      m.scheduler.slots := by
    simp [Scheduler.updateSlot]
  -- the slot is updated to itself
  have hset := h.setStatus_updateSlot hthread (f := fun slot => slot) (fun _ => rfl)
    (h.numbering.setStatus h.threads hthread status hchild) hstanding
  exact hset.same ⟨rfl, rfl, rfl, rfl, hslots.symm, rfl, rfl, rfl, rfl⟩

/-- The inbox of a thread that is not at a receive may change. -/
theorem InControl.setInbox {m : Machine σ β} {a : OperationId} (h : m.InControl a)
    (x₀ : OperationId) (hstatus : ∀ status, m.status? x₀ = some status → status.receives = false)
    (messages : List Message) : (m.setInbox x₀ messages).InControl a := by
  refine h.revise x₀ ⟨h.threads.congr rfl rfl, h.slots, rfl, rfl, rfl, rfl,
    fun x _ => rfl, fun x _ => rfl, fun x hx => ?_⟩ ?_ ?_
  · rw [inbox_setInbox, if_neg hx]
  · rcases h.stands x₀ with ⟨hnone, hslot, hne⟩ | ⟨status, slot, hfound, hslot, hst⟩
    · exact Or.inl ⟨hnone, hslot, hne⟩
    · refine Or.inr ⟨status, slot, hfound, hslot, hst.active, hst.completed, ?_, hst.enabled,
        hst.posture⟩
      rw [hst.waiting, hstatus status hfound]
      rfl
  · exact h.numbering.keep (fun x child hc => hc) (fun x => Iff.rfl) (Nat.le_refl _)

/-- A message that arrives wakes its receiver, if that waits for one. -/
theorem InControl.deliver {m : Machine σ β} {a : OperationId} (h : m.InControl a)
    (target : OperationId) (message : Message) :
    ((m.setInbox target (m.inbox target ++ [message])).withScheduler
      (·.unblock target)).InControl a := by
  have hslot : ∀ x, (m.scheduler.unblock target).slot? x =
      if x = target then (m.scheduler.slot? x).map Slot.unblock else m.scheduler.slot? x :=
    fun x => Scheduler.slot?_updateSlot m.scheduler target x Slot.id_unblock
  refine h.revise target ⟨h.threads.congr rfl rfl, ?_, rfl, rfl, rfl, rfl,
    fun x _ => rfl, fun x hx => (hslot x).trans (if_neg hx), fun x hx => ?_⟩ ?_ ?_
  · exact (Scheduler.quiet_unblock m.scheduler target).distinct h.slots
  · exact (inbox_setInbox m target x _).trans (if_neg hx)
  · rcases h.stands target with ⟨hnone, hfound, hne⟩ | ⟨status, slot, hfound, hfoundSlot, hst⟩
    · -- a message to an operation that does not exist changes no slot
      refine Or.inl ⟨hnone, ?_, hne⟩
      refine (hslot target).trans ?_
      rw [if_pos rfl, hfound]
      rfl
    · have hinbox : ((m.setInbox target (m.inbox target ++ [message])).withScheduler
          (·.unblock target)).inbox target = m.inbox target ++ [message] :=
        (inbox_setInbox m target target _).trans (if_pos rfl)
      refine Or.inr ⟨status, slot.unblock, hfound, ?_, ?_⟩
      · refine (hslot target).trans ?_
        rw [if_pos rfl, hfoundSlot]
        rfl
      · rw [hinbox]
        exact hst.unblock message
  · refine h.numbering.keep (fun x child hc => hc) (fun x => ?_) (Nat.le_refl _)
    show (m.scheduler.unblock target).slot? x = none ↔ m.scheduler.slot? x = none
    rw [hslot x]
    by_cases hx : x = target
    · simp [hx]
    · simp [hx]

/-- The machine with a new operation, whose thread is to start. -/
def spawn (m : Machine σ β) (id : OperationId) (name : String) (child : β) : Machine σ β :=
  { m with
    scheduler := (m.scheduler.create id name).2
    threads := m.threads ++ [⟨(m.scheduler.create id name).1, .starting child⟩] }

theorem status?_spawn {m : Machine σ β} {id : OperationId} (hnone : m.status? id = none)
    (hfresh : m.scheduler.slot? id = none) (name : String) (child : β) (x : OperationId) :
    (m.spawn id name child).status? x =
      if x = id then some (.starting child) else m.status? x := by
  unfold status? spawn at *
  simp only [List.find?_append, Scheduler.create_of_fresh hfresh]
  by_cases hx : x = id
  · rw [Option.map_eq_none_iff] at hnone
    simp [hx, hnone]
  · simp [hx, Ne.symm hx]

theorem slot?_spawn {m : Machine σ β} {a : OperationId} (h : m.InControl a) {id : OperationId}
    (hfresh : m.scheduler.slot? id = none) (name : String) (child : β) (x : OperationId) :
    (m.spawn id name child).scheduler.slot? x =
      if x = id then some (.fresh id name) else m.scheduler.slot? x := by
  obtain ⟨_, slot, -, hslot, -⟩ := h.stands_self
  exact Scheduler.slot?_create hfresh h.running
    (List.ne_nil_of_mem (Scheduler.mem_of_slot? hslot)) name x

theorem OwnThreads.spawn {m : Machine σ β} (h : m.OwnThreads) {id : OperationId}
    (hfresh : m.scheduler.slot? id = none) (hnone : m.status? id = none) (name : String)
    (child : β) : (m.spawn id name child).OwnThreads := by
  have htoken : (m.scheduler.create id name).1 = ⟨m.scheduler.id, id⟩ := by
    rw [Scheduler.create_of_fresh hfresh]
  constructor
  · intro thread hthread
    show thread.token.scheduler = (m.scheduler.create id name).2.id
    rw [Scheduler.create_of_fresh hfresh]
    rcases List.mem_append.mp hthread with hold | hnew
    · exact h.own thread hold
    · rw [List.mem_singleton.mp hnew, htoken]
      rfl
  · simp only [Machine.spawn, List.map_append, List.map_cons, List.map_nil, htoken]
    refine List.nodup_append.mpr ⟨h.distinct, by simp, ?_⟩
    intro x hx y hy
    obtain ⟨thread, hthread, rfl⟩ := List.mem_map.mp hx
    rw [List.mem_singleton.mp hy]
    intro heq
    rw [← heq, h.status?_eq hthread] at hnone
    cases hnone

/-- A thread that is to start creates nothing. -/
theorem creates_of_spawn {m : Machine σ β} {id : OperationId}
    (hfresh : m.scheduler.slot? id = none) (hnone : m.status? id = none) {name : String}
    {child : β} {x other : OperationId} (h : (m.spawn id name child).Creates x other) :
    m.Creates x other := by
  obtain ⟨status, hx, hother⟩ := h
  rw [status?_spawn hnone hfresh] at hx
  by_cases heq : x = id
  · rw [if_pos heq, Option.some.injEq] at hx
    rw [← hx] at hother
    cases hother
  · rw [if_neg heq] at hx
    exact ⟨status, hx, hother⟩

/-- The identity of a new operation is used up, and no creation that is still to come had it. -/
theorem Numbering.spawn {m : Machine σ β} {id : OperationId} (h : m.Numbering)
    (hfresh : m.scheduler.slot? id = none) (hnone : m.status? id = none)
    (hnumber : id.value.toNat < m.nextOperation.toNat) (hunclaimed : ∀ x, ¬ m.Creates x id)
    {name : String} {child : β}
    (hslots : ∀ x, (m.spawn id name child).scheduler.slot? x =
      if x = id then some (.fresh id name) else m.scheduler.slot? x) :
    (m.spawn id name child).Numbering where
  harness := by
    rw [hslots]
    split
    · simp
    · exact h.harness
  registered x hx := by
    rw [hslots] at hx
    by_cases heq : x = id
    · rw [heq]
      exact hnumber
    · rw [if_neg heq] at hx
      exact h.registered x hx
  fresh x other hc := by
    have hold := creates_of_spawn hfresh hnone hc
    obtain ⟨hfree, hlt⟩ := h.fresh x other hold
    refine ⟨?_, hlt⟩
    rw [hslots, if_neg ?_]
    · exact hfree
    · rintro rfl
      exact hunclaimed x hold
  unique x y other hx hy :=
    h.unique x y other (creates_of_spawn hfresh hnone hx) (creates_of_spawn hfresh hnone hy)

theorem InControl.spawn {m : Machine σ β} {a : OperationId} (h : m.InControl a)
    {id : OperationId} (hfresh : m.scheduler.slot? id = none)
    (hnumber : id.value.toNat < m.nextOperation.toNat)
    (hunclaimed : ∀ x, ¬ m.Creates x id) (name : String) (child : β) :
    (m.spawn id name child).InControl a := by
  have hcreate : (m.spawn id name child).scheduler = m.scheduler.register id name := by
    rw [Machine.spawn, Scheduler.create_of_fresh hfresh]
  obtain ⟨_, slot, -, hslot, -⟩ := h.stands_self
  have hslots := slot?_spawn h hfresh name child
  have hne : a ≠ id := h.ne_of_fresh hfresh
  have hnone : m.status? id = none := h.status?_eq_none hfresh
  have hstatus := status?_spawn hnone hfresh name child
  -- only the first operation of all gets control when it is created
  have hscheduled : (m.spawn id name child).scheduler.scheduled = m.scheduler.scheduled := by
    have hempty : m.scheduler.slots.isEmpty = false := by
      simpa using List.ne_nil_of_mem (Scheduler.mem_of_slot? hslot)
    rw [hcreate, Scheduler.register, hempty]
    rfl
  refine h.revise id ⟨h.threads.spawn hfresh hnone name child, ?_,
    (congrArg Scheduler.running hcreate).trans rfl, (congrArg Scheduler.bug hcreate).trans rfl,
    (congrArg Scheduler.error hcreate).trans rfl, hscheduled, fun x hx => ?_,
    fun x hx => (hslots x).trans (if_neg hx), fun x _ => rfl⟩ ?_
    (h.numbering.spawn hfresh hnone hnumber hunclaimed hslots)
  · exact (Scheduler.quiet_create m.scheduler id name).distinct h.slots
  · rw [hstatus, if_neg hx]
  · refine Or.inr ⟨.starting child, .fresh id name, ?_, ?_, ?_⟩
    · rw [hstatus, if_pos rfl]
    · rw [hslots, if_pos rfl]
    · refine ⟨?_, rfl, rfl, rfl, rfl, fun hharness => ?_⟩
      · simp [Slot.fresh, Ne.symm hne]
      · exact absurd (hharness ▸ hfresh) h.numbering.harness

/-! ## Coming to a scheduling point -/

theorem threads_approach {m m₁ : Machine σ β} {t : Token} {body : β} {action : Action β}
    {pending : Pending β} (h : m.approach t body action = some (m₁, pending)) :
    m₁.threads = m.threads := by
  cases action with
  | finish => cases h; rfl
  | create name child next => cases h; rfl
  | send target name value next => cases h; rfl
  | receive next =>
      cases h
      split <;> rfl
  | _ => cases h

theorem inbox_approach {m m₁ : Machine σ β} {t : Token} {body : β} {action : Action β}
    {pending : Pending β} (h : m.approach t body action = some (m₁, pending)) (x : OperationId) :
    m₁.inbox x = m.inbox x := by
  cases action with
  | finish => cases h; rfl
  | create name child next => cases h; rfl
  | send target name value next => cases h; rfl
  | receive next =>
      cases h
      split <;> rfl
  | _ => cases h

theorem ids_approach {m m₁ : Machine σ β} {t : Token} {body : β} {action : Action β}
    {pending : Pending β} (h : m.approach t body action = some (m₁, pending)) :
    m₁.scheduler.slots.map Slot.id = m.scheduler.slots.map Slot.id := by
  cases action with
  | finish =>
      cases h
      exact Scheduler.ids_updateSlot m.scheduler t.operation (f := Slot.complete) fun _ => rfl
  | create name child next => cases h; rfl
  | send target name value next => cases h; rfl
  | receive next =>
      cases h
      split
      · exact Scheduler.ids_updateSlot m.scheduler t.operation (f := Slot.block) fun _ => rfl
      · rfl
  | _ => cases h

/-- Coming to a scheduling point numbers no message and does not matter to how the run goes. -/
structure Steady (m m' : Machine σ β) : Prop where
  nextMessage : m'.nextMessage = m.nextMessage
  id : m'.scheduler.id = m.scheduler.id
  running : m'.scheduler.running = m.scheduler.running

theorem steady_approach {m m₁ : Machine σ β} {t : Token} {body : β} {action : Action β}
    {pending : Pending β} (h : m.approach t body action = some (m₁, pending)) : m.Steady m₁ := by
  cases action with
  | finish => cases h; exact ⟨rfl, rfl, rfl⟩
  | create name child next => cases h; exact ⟨rfl, rfl, rfl⟩
  | send target name value next => cases h; exact ⟨rfl, rfl, rfl⟩
  | receive next =>
      cases h
      split <;> exact ⟨rfl, rfl, rfl⟩
  | _ => cases h

/-- The machine in which a thread has declared its action and waits for the reply. -/
def poised (m : Machine σ β) (t : Token) (pending : Pending β) : Machine σ β :=
  (m.withScheduler (·.updateSlot t.operation (·.declare (pending.declared t.operation)))).setStatus
    t pending.rest

/-- A thread in the middle of its body is that of the operation in control. -/
theorem InControl.running_eq {m : Machine σ β} {a : OperationId} (h : m.InControl a)
    {thread : Thread β} (hthread : thread ∈ m.threads) {body : β}
    (hstatus : thread.status = .running body) : thread.token.operation = a := by
  obtain ⟨slot, -, hst⟩ := h.standing_of_mem hthread
  rw [hstatus] at hst
  exact hst.posture

theorem updateSlot_updateSlot (s : Scheduler σ) (id : OperationId) {f g : Slot → Slot}
    (hf : ∀ slot, (f slot).id = slot.id) :
    (s.updateSlot id f).updateSlot id g = s.updateSlot id fun slot => g (f slot) := by
  simp only [Scheduler.updateSlot, List.map_map]
  congr 1
  refine List.map_congr_left fun slot _ => ?_
  by_cases hid : slot.id = id
  · simp [hid, hf]
  · simp [hid]

theorem toNat_succ {n : UInt64} (h : n.toNat + 1 < UInt64.size) :
    (n + 1).toNat = n.toNat + 1 := by
  rw [UInt64.toNat_add]
  exact Nat.mod_eq_of_lt h

/-- An identity that has just been taken is free for a creation. -/
theorem Numbering.claim {m : Machine σ β} (h : m.Numbering) (hthreads : m.OwnThreads)
    {thread : Thread β} (hthread : thread ∈ m.threads)
    (hwrap : m.nextOperation.toNat + 1 < UInt64.size) (name : String) (child : β)
    (next : OperationId → β) :
    ({ m with nextOperation := m.nextOperation + 1 }.setStatus thread.token
      (.parked (.create ⟨m.nextOperation⟩ name child next))).Numbering := by
  let id : OperationId := ⟨m.nextOperation⟩
  have hsucc := toNat_succ hwrap
  have hstatus := hthreads.status?_setStatus hthread (.parked (.create id name child next))
  have hfree : m.scheduler.slot? id = none := by
    by_contra hslot
    exact Nat.lt_irrefl _ (h.registered id hslot)
  -- a creation is the new one or an old one, whose operation has a smaller number
  have hcreates : ∀ x other, (m.setStatus thread.token
      (.parked (.create id name child next))).Creates x other →
        (x = thread.token.operation ∧ other = id) ∨ m.Creates x other := by
    rintro x other ⟨status, hx, hother⟩
    rw [hstatus] at hx
    by_cases heq : x = thread.token.operation
    · rw [if_pos heq, Option.some.injEq] at hx
      rw [← hx] at hother
      exact Or.inl ⟨heq, (Option.some.inj hother).symm⟩
    · rw [if_neg heq] at hx
      exact Or.inr ⟨status, hx, hother⟩
  refine ⟨h.harness, fun x hx => ?_, fun x other hc => ?_, fun x y other hx hy => ?_⟩
  · -- the identities in use are below the next one also when that moves on
    have := h.registered x hx
    show x.value.toNat < (m.nextOperation + 1).toNat
    omega
  · show m.scheduler.slot? other = none ∧ other.value.toNat < (m.nextOperation + 1).toNat
    rcases hcreates x other hc with ⟨-, rfl⟩ | hold
    · exact ⟨hfree, by rw [hsucc]; exact Nat.lt_succ_self _⟩
    · obtain ⟨hnone, hlt⟩ := h.fresh x other hold
      exact ⟨hnone, by omega⟩
  · rcases hcreates x other hx with ⟨rfl, rfl⟩ | hxold <;>
      rcases hcreates y _ hy with ⟨rfl, hid⟩ | hyold
    · rfl
    · exact absurd (h.fresh y _ hyold).2 (Nat.lt_irrefl _)
    · subst hid
      exact absurd (h.fresh x _ hxold).2 (Nat.lt_irrefl _)
    · exact h.unique x y other hxold hyold

/-- A thread that declares its action and has nothing to wait for but the reply. -/
theorem InControl.declare {m : Machine σ β} {a : OperationId} (h : m.InControl a)
    {thread : Thread β} (hthread : thread ∈ m.threads) {body : β}
    (hstatus : thread.status = .running body) {pending : Pending β}
    (hnumbering : (m.setStatus thread.token pending.rest).Numbering)
    (hexited : pending.rest.isExited = false)
    (hwaiting : (pending.rest.receives && (m.inbox thread.token.operation).isEmpty) = false)
    (hposture : pending.rest.Posture thread.token.operation (thread.token.operation = a)
      (pending.declared thread.token.operation)) :
    (m.poised thread.token pending).InControl a := by
  refine h.setStatus_updateSlot hthread
    (f := (·.declare (pending.declared thread.token.operation))) (fun _ => rfl) hnumbering
    fun slot hst => ?_
  rw [hstatus] at hst
  refine ⟨hst.active, ?_, ?_, hst.enabled, hposture⟩
  · exact hst.completed.trans hexited.symm
  · exact hst.waiting.trans hwaiting.symm

/-- A thread that changes its slot before it declares its action. -/
theorem InControl.poised_updateSlot {m : Machine σ β} {a : OperationId} (h : m.InControl a)
    {thread : Thread β} (hthread : thread ∈ m.threads) {pending : Pending β} {f : Slot → Slot}
    (hf : ∀ slot, (f slot).id = slot.id)
    (hnumbering : (m.setStatus thread.token pending.rest).Numbering)
    (hstanding : ∀ slot, Standing thread.token.operation (thread.token.operation = a)
        (m.inbox thread.token.operation) thread.status slot →
      Standing thread.token.operation (thread.token.operation = a)
        (m.inbox thread.token.operation) pending.rest
          ((f slot).declare (pending.declared thread.token.operation))) :
    ((m.withScheduler (·.updateSlot thread.token.operation f)).poised thread.token
      pending).InControl a := by
  let d : Declared := pending.declared thread.token.operation
  have hset := h.setStatus_updateSlot hthread (f := fun slot => (f slot).declare d) hf hnumbering
    hstanding
  have hslots := updateSlot_updateSlot m.scheduler thread.token.operation (f := f)
    (g := (·.declare d)) hf
  exact hset.same ⟨rfl, rfl, rfl, rfl, congrArg Scheduler.slots hslots, rfl, rfl, rfl, rfl⟩

/-- The thread of the operation in control comes to a scheduling point. -/
theorem InControl.poise {m m₁ : Machine σ β} {a : OperationId} (h : m.InControl a)
    {thread : Thread β} (hthread : thread ∈ m.threads) {body : β}
    (hstatus : thread.status = .running body) {action : Action β} {pending : Pending β}
    (happ : m.approach thread.token body action = some (m₁, pending))
    (hwrap : m.nextOperation.toNat + 1 < UInt64.size) :
    (m₁.poised thread.token pending).InControl a := by
  cases action with
  | finish =>
      cases happ
      refine h.poised_updateSlot hthread (f := Slot.complete) (fun _ => rfl)
        (h.numbering.setStatus h.threads hthread .exited rfl) fun slot hst => ?_
      rw [hstatus] at hst
      exact ⟨hst.active, rfl, hst.waiting, rfl, trivial⟩
  | create name child next =>
      cases happ
      -- the identity of the child is taken here, the child itself comes when this is performed
      let m₁ : Machine σ β := { m with nextOperation := m.nextOperation + 1 }
      have hadvance : m₁.InControl a := by
        refine ⟨h.threads.congr rfl rfl, h.slots, h.running, h.bug, h.error, h.scheduled,
          h.stands, h.numbering.keep (fun x child hc => hc) (fun x => Iff.rfl) ?_⟩
        show m.nextOperation.toNat ≤ (m.nextOperation + 1).toNat
        rw [toNat_succ hwrap]
        exact Nat.le_succ _
      exact hadvance.declare hthread hstatus
        (h.numbering.claim h.threads hthread hwrap name child next) rfl rfl rfl
  | send target name value next =>
      cases happ
      exact h.declare hthread hstatus (h.numbering.setStatus h.threads hthread _ rfl) rfl rfl rfl
  | receive next =>
      simp only [approach, Option.some.injEq, Prod.mk.injEq] at happ
      obtain ⟨hm₁, rfl⟩ := happ
      have hnumbering := h.numbering.setStatus h.threads hthread (.parked (.receive body next)) rfl
      cases hempty : (m.inbox thread.token.operation).isEmpty with
      | false =>
          rw [hempty, if_neg Bool.false_ne_true] at hm₁
          subst hm₁
          exact h.declare hthread hstatus hnumbering rfl hempty rfl
      | true =>
          -- the slot is blocked until a message comes
          rw [hempty, if_pos rfl] at hm₁
          subst hm₁
          refine h.poised_updateSlot hthread (f := Slot.block) (fun _ => rfl) hnumbering
            fun slot hst => ?_
          rw [hstatus] at hst
          refine ⟨hst.active, hst.completed, ?_, ?_, rfl⟩
          · rw [hempty]
            rfl
          · show false = !(slot.completed || true)
            simp
  | _ => cases happ

/-! ## Handing over -/

/-- When control changes hands every operation stands in order. -/
theorem InControl.stands_handOver {m : Machine σ β} {a next : OperationId} (h : m.InControl a)
    (hne : next ≠ a) (hyields : ∀ status, m.status? a = some status → status.yields = true)
    (hexists : m.scheduler.slot? next ≠ none) (x : OperationId) :
    (m.withScheduler fun s => (s.handOver a next).2).Stands next x := by
  have hslots := Scheduler.slot?_passControl m.scheduler hne x
  rw [← Scheduler.snd_handOver_of_ne _ hne] at hslots
  rcases h.stands x with ⟨hnone, hslot, -⟩ | ⟨status, slot, hstatus, hslot, hst⟩
  · refine Or.inl ⟨hnone, ?_, fun hx => hexists (hx ▸ hslot)⟩
    refine hslots.trans ?_
    rw [hslot]
    simp
  · rw [hslot] at hslots
    by_cases hx : x = next
    · rw [if_pos hx] at hslots
      exact Or.inr ⟨status, _, hstatus, hslots, hst.wake.congr (by simp [hx])⟩
    · rw [if_neg hx] at hslots
      by_cases hxa : x = a
      · -- the operation that loses control may do so, as it has come to a scheduling point
        rw [if_pos hxa] at hslots
        have hidle := hst.idle (hyields status (hxa ▸ hstatus))
        exact Or.inr ⟨status, _, hstatus, hslots, hidle.congr (by simp [hx])⟩
      · rw [if_neg hxa] at hslots
        exact Or.inr ⟨status, slot, hstatus, hslots, hst.congr (by simp [hx, hxa])⟩

/-- Control goes from an operation that has come to a scheduling point to one that is enabled. -/
theorem InControl.handOver {m : Machine σ β} {a next : OperationId} (h : m.InControl a)
    (hyields : ∀ status, m.status? a = some status → status.yields = true) {slot : Slot}
    (hslot : m.scheduler.slot? next = some slot) (henabled : slot.enabled = true) :
    (m.withScheduler fun s => (s.handOver a next).2).InControl next ∧
      ∃ slot', (m.scheduler.handOver a next).2.slot? next = some slot' ∧
        slot'.enabled = true ∧ slot'.next = slot.next := by
  by_cases hnext : next = a
  · -- control stays where it is
    subst hnext
    show InControl { m with scheduler := (m.scheduler.handOver next next).2 } next ∧ _
    rw [Scheduler.handOver_self]
    exact ⟨h, slot, hslot, henabled, rfl⟩
  · have hover := Scheduler.snd_handOver_of_ne m.scheduler hnext
    have hslots := Scheduler.slot?_passControl m.scheduler hnext
    rw [← hover] at hslots
    have hfound := hslots next
    rw [if_pos rfl, hslot] at hfound
    have hexists : m.scheduler.slot? next ≠ none := by
      rw [hslot]
      exact Option.some_ne_none slot
    refine ⟨⟨h.threads.congr rfl ?_, ?_, ?_, ?_, ?_, ?_,
      h.stands_handOver hnext hyields hexists, ?_⟩, _, hfound, henabled, rfl⟩
    · exact (congrArg Scheduler.id hover).trans rfl
    · exact (Scheduler.quiet_handOver m.scheduler a next).distinct h.slots
    · exact (congrArg Scheduler.running hover).trans h.running
    · exact (congrArg Scheduler.bug hover).trans h.bug
    · exact (congrArg Scheduler.error hover).trans h.error
    · exact congrArg Scheduler.scheduled hover
    · refine h.numbering.keep (fun x child hc => hc) (fun x => ?_) (Nat.le_refl _)
      show (m.scheduler.handOver a next).2.slot? x = none ↔ m.scheduler.slot? x = none
      rw [hslots]
      split
      · simp
      · split
        · simp
        · exact Iff.rfl

end Machine

end Interleave
