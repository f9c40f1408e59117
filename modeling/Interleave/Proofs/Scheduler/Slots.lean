import Interleave.Proofs.Scheduler.Ends

/-!
# The slots of a scheduler

What is found under an identity after a slot was put in its place (`Scheduler.find?_insertSlot`) or
changed (`Scheduler.slot?_updateSlot`), and what the calls come to that change slots. An operation
is registered if its identity is new (`Scheduler.create_cases`), a handler starts if its token is
known (`Scheduler.start_cases`), and control stays where it is or passes to another operation
(`Scheduler.handOver_cases`). What these calls keep is proved by these cases.
-/

namespace Interleave

namespace Slot

@[simp]
theorem id_unblock (slot : Slot) : slot.unblock.id = slot.id := by
  unfold unblock
  split <;> rfl

@[simp]
theorem active_unblock (slot : Slot) : slot.unblock.active = slot.active := by
  unfold unblock
  split <;> rfl

end Slot

namespace Scheduler

variable {σ : Type}

/-! ## Looking up slots -/

theorem slot?_eq_none_iff {s : Scheduler σ} {x : OperationId} :
    s.slot? x = none ↔ x ∉ s.slots.map Slot.id := by
  simp [slot?, List.find?_eq_none]

theorem mem_of_slot? {s : Scheduler σ} {x : OperationId} {slot : Slot}
    (h : s.slot? x = some slot) : slot ∈ s.slots :=
  List.mem_of_find?_eq_some h

/-- With distinct slots, every slot is the one found under its operation. -/
theorem slot?_of_mem {s : Scheduler σ} (hids : (s.slots.map Slot.id).Nodup) {slot : Slot}
    (h : slot ∈ s.slots) : s.slot? slot.id = some slot := by
  unfold slot?
  generalize s.slots = slots at hids h
  induction slots with
  | nil => cases h
  | cons other rest ih =>
      rw [List.map_cons, List.nodup_cons] at hids
      rcases List.mem_cons.mp h with rfl | hrest
      · simp
      · have hne : other.id ≠ slot.id := by
          intro heq
          exact hids.1 (List.mem_map.mpr ⟨slot, hrest, heq.symm⟩)
        rw [List.find?_cons_of_neg (by simpa using hne)]
        exact ih hids.2 hrest

theorem slot?_updateSlot (s : Scheduler σ) (id x : OperationId) {f : Slot → Slot}
    (hf : ∀ slot, (f slot).id = slot.id) :
    (s.updateSlot id f).slot? x = if x = id then (s.slot? x).map f else s.slot? x := by
  unfold slot? updateSlot
  have hpred : ((fun slot : Slot => decide (slot.id = x)) ∘
      fun slot => if slot.id = id then f slot else slot) = fun slot => decide (slot.id = x) := by
    funext slot
    by_cases hid : slot.id = id
    · simp [hid, hf]
    · simp [hid]
  rw [List.find?_map, hpred]
  cases hfind : s.slots.find? (fun slot => decide (slot.id = x)) with
  | none => simp
  | some slot =>
      have hx : slot.id = x := by simpa using List.find?_some hfind
      by_cases hxid : x = id
      · simp [hx, hxid]
      · simp [hx, hxid]

/-! ## Slots in their place -/

theorem insertSlot_perm (slot : Slot) (slots : List Slot) :
    (insertSlot slot slots).Perm (slot :: slots) := by
  induction slots with
  | nil => exact List.Perm.refl _
  | cons s rest ih =>
      unfold insertSlot
      split
      · exact List.Perm.refl _
      · exact (ih.cons s).trans (List.Perm.swap slot s rest)

theorem find?_insertSlot {slot : Slot} {slots : List Slot} (x : OperationId)
    (hfresh : slots.find? (·.id = slot.id) = none) :
    (insertSlot slot slots).find? (·.id = x) =
      if x = slot.id then some slot else slots.find? (·.id = x) := by
  induction slots with
  | nil =>
      by_cases hx : x = slot.id
      · simp [insertSlot, hx]
      · simp [insertSlot, hx, Ne.symm hx]
  | cons s rest ih =>
      have hne : s.id ≠ slot.id := by
        intro heq
        simp [heq] at hfresh
      have hrest : rest.find? (·.id = slot.id) = none := by
        rw [List.find?_cons_of_neg (by simpa using hne)] at hfresh
        exact hfresh
      unfold insertSlot
      split
      · by_cases hx : x = slot.id
        · simp [hx]
        · simp [hx, Ne.symm hx]
      · by_cases hs : s.id = x
        · have hx : x ≠ slot.id := hs ▸ hne
          simp [hs, hx]
        · rw [List.find?_cons_of_neg (by simpa using hs), ih hrest,
            List.find?_cons_of_neg (by simpa using hs)]

/-! ## Registering -/

/-- The slot that a new operation gets. The first one is active, and one that comes after the end of
the run is killed. -/
def newSlot (s : Scheduler σ) (id : OperationId) (name : String) : Slot :=
  let slot := { Slot.fresh id name with active := s.slots.isEmpty }
  if s.running then slot else slot.kill

@[simp]
theorem id_newSlot (s : Scheduler σ) (id : OperationId) (name : String) :
    (s.newSlot id name).id = id := by
  unfold newSlot
  dsimp only
  split <;> rfl

theorem newSlot_of_running {s : Scheduler σ} (h : s.running = true) (id : OperationId)
    (name : String) :
    s.newSlot id name = { Slot.fresh id name with active := s.slots.isEmpty } :=
  if_pos h

theorem newSlot_of_over {s : Scheduler σ} (h : s.running = false) (id : OperationId)
    (name : String) :
    s.newSlot id name = { Slot.fresh id name with active := s.slots.isEmpty }.kill :=
  if_neg (by simp [h])

/-- The scheduler with a new operation. -/
def register (s : Scheduler σ) (id : OperationId) (name : String) : Scheduler σ :=
  { s with
    slots := insertSlot (s.newSlot id name) s.slots
    scheduled := if s.slots.isEmpty then some id else s.scheduled }

theorem create_of_fresh {s : Scheduler σ} {id : OperationId} (h : s.slot? id = none)
    (name : String) : s.create id name = (⟨s.id, id⟩, s.register id name) := by
  simp [create, h, register, newSlot]

theorem create_of_known {s : Scheduler σ} {id : OperationId} {slot : Slot}
    (h : s.slot? id = some slot) (name : String) : s.create id name = (⟨s.id, id⟩, s) := by
  simp [create, h]

/-- An operation is registered if its identity is new, and otherwise the state stays as it is. -/
theorem create_cases (s : Scheduler σ) (id : OperationId) (name : String) :
    s.create id name = (⟨s.id, id⟩, s) ∨
      s.slot? id = none ∧ s.create id name = (⟨s.id, id⟩, s.register id name) := by
  cases h : s.slot? id with
  | some slot => exact Or.inl (create_of_known h name)
  | none => exact Or.inr ⟨rfl, create_of_fresh h name⟩

theorem ids_register (s : Scheduler σ) (id : OperationId) (name : String) :
    ((s.register id name).slots.map Slot.id).Perm (id :: s.slots.map Slot.id) := by
  have hperm := (insertSlot_perm (s.newSlot id name) s.slots).map Slot.id
  rwa [List.map_cons, id_newSlot] at hperm

theorem mem_slots_register {s : Scheduler σ} {id : OperationId} {name : String} {slot : Slot} :
    slot ∈ (s.register id name).slots ↔ slot = s.newSlot id name ∨ slot ∈ s.slots :=
  (insertSlot_perm (s.newSlot id name) s.slots).mem_iff.trans List.mem_cons

theorem slot?_register {s : Scheduler σ} {id : OperationId} (h : s.slot? id = none) (name : String)
    (x : OperationId) :
    (s.register id name).slot? x = if x = id then some (s.newSlot id name) else s.slot? x := by
  have hfresh : s.slots.find? (·.id = (s.newSlot id name).id) = none := by
    rw [id_newSlot]
    exact h
  have hfind := find?_insertSlot x hfresh
  rwa [id_newSlot] at hfind

/-- The slot of an operation that is registered while others exist already. -/
theorem slot?_create {s : Scheduler σ} {id : OperationId} (hfresh : s.slot? id = none)
    (hrun : s.running = true) (hothers : s.slots ≠ []) (name : String) (x : OperationId) :
    (s.create id name).2.slot? x = if x = id then some (.fresh id name) else s.slot? x := by
  have hempty : s.slots.isEmpty = false := by simpa using hothers
  have hslot : s.newSlot id name = .fresh id name := by
    rw [newSlot_of_running hrun, hempty]
    rfl
  rw [create_of_fresh hfresh, slot?_register hfresh, hslot]

/-! ## Starting and handing over -/

theorem start_of_known {s : Scheduler σ} {t : Token} {slot : Slot}
    (hslot : s.slot? t.operation = some slot) (hown : t.scheduler = s.id) :
    s.start t = (slot.wake,
      s.updateSlot t.operation fun slot => { slot with handlerRunning := true }) := by
  simp [start, hslot, hown]

/-- A handler starts if its token is known, and otherwise the run fails. -/
theorem start_cases (s : Scheduler σ) (t : Token) :
    (∃ slot, s.slot? t.operation = some slot ∧ t.scheduler = s.id ∧
        s.start t = (slot.wake,
          s.updateSlot t.operation fun slot => { slot with handlerRunning := true })) ∨
      ¬((s.slot? t.operation).isSome ∧ t.scheduler = s.id) ∧
        s.start t = (.canceled, s.fail .uncontrolledSynchronization
          (Misuse.startedUnregistered t.operation).message) := by
  cases hslot : s.slot? t.operation with
  | none => exact Or.inr ⟨by simp, by simp [start, hslot]⟩
  | some slot =>
      by_cases hown : t.scheduler = s.id
      · exact Or.inl ⟨slot, rfl, hown, start_of_known hslot hown⟩
      · exact Or.inr ⟨by simp [hown], by simp [start, hslot, hown]⟩

/-- The scheduler with the control of one operation passed to another one. -/
def passControl (s : Scheduler σ) (current next : OperationId) : Scheduler σ :=
  let s := s.updateSlot current fun slot => { slot with active := false }
  { s.updateSlot next fun slot => { slot with active := true } with scheduled := some next }

/-- The slots of an operation that loses control and of one that gets it. -/
theorem slot?_passControl (s : Scheduler σ) {current next : OperationId} (h : next ≠ current)
    (x : OperationId) :
    (s.passControl current next).slot? x =
      if x = next then (s.slot? x).map fun slot => { slot with active := true }
      else if x = current then (s.slot? x).map fun slot => { slot with active := false }
      else s.slot? x := by
  let idle : Slot → Slot := fun slot => { slot with active := false }
  let wake : Slot → Slot := fun slot => { slot with active := true }
  refine (slot?_updateSlot (s.updateSlot current idle) next x (f := wake) fun _ => rfl).trans ?_
  rw [slot?_updateSlot s current x (f := idle) fun _ => rfl]
  by_cases hx : x = next
  · simp [hx, h, wake]
  · simp [hx, idle]

theorem handOver_self (s : Scheduler σ) (current : OperationId) :
    s.handOver current current = (.proceed, s) := by
  simp [handOver]

theorem handOver_of_ne (s : Scheduler σ) {current next : OperationId} (h : next ≠ current) :
    s.handOver current next =
      (if (s.slot? current).any (·.completed) then .proceed else .parked,
        s.passControl current next) := by
  simp [handOver, h, passControl]

theorem snd_handOver_of_ne (s : Scheduler σ) {current next : OperationId} (h : next ≠ current) :
    (s.handOver current next).2 = s.passControl current next := by
  rw [handOver_of_ne s h]

/-- Control stays where it is or passes to another operation. -/
theorem handOver_cases (s : Scheduler σ) (current next : OperationId) :
    s.handOver current next = (.proceed, s) ∨
      next ≠ current ∧ (s.handOver current next).2 = s.passControl current next := by
  by_cases h : next = current
  · subst h
    exact Or.inl (s.handOver_self next)
  · exact Or.inr ⟨h, snd_handOver_of_ne s h⟩

end Scheduler

end Interleave
