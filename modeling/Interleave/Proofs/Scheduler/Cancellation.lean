import Interleave.Proofs.Scheduler.Verdict

/-!
# Cancellation

The end of a run kills all slots: they are active and disabled (`Scheduler.Killed`), so that whoever
waits for one, now or later, is canceled (`Scheduler.Killed.canceled`). Every call that ends a run
does so except the report of an assertion (`Scheduler.killed_after_of_ends`). A killed state stays
one under every call but one: a message that arrives for an operation that waits for one enables its
slot again (`Scheduler.Killed.after_iff`), and whoever waits for that slot gets control
(`Scheduler.Killed.proceed_of_revives`). So a cancellation is final as long as no such message
arrives, and no longer (`Scheduler.canceled_iff_not_revived`).
-/

namespace Interleave

/-- Active and disabled. -/
structure Slot.IsKilled (slot : Slot) : Prop where
  active : slot.active = true
  disabled : slot.enabled = false

theorem Slot.isKilled_kill (slot : Slot) : slot.kill.IsKilled :=
  ⟨rfl, rfl⟩

theorem Slot.IsKilled.wake {slot : Slot} (h : slot.IsKilled) : slot.wake = .canceled := by
  simp [Slot.wake, h.active, h.disabled]

/-- A message arrives at a killed slot: the slot stays killed unless its owner waits for one. -/
theorem Slot.IsKilled.unblock_iff {slot : Slot} (h : slot.IsKilled) :
    slot.unblock.IsKilled ↔ slot.waiting = false := by
  unfold Slot.unblock
  cases hwaiting : slot.waiting with
  | true => simpa using fun hkilled : Slot.IsKilled _ => by simpa using hkilled.disabled
  | false => simpa using h

namespace Scheduler

variable {σ : Type}

/-- The run is over, and all slots are killed. -/
structure Killed (s : Scheduler σ) : Prop where
  stopped : s.running = false
  slots : ∀ slot ∈ s.slots, slot.IsKilled

/-- The call is a message for an operation that waits for one. -/
def Revives (s : Scheduler σ) (c : Call) : Prop :=
  ∃ slot ∈ s.slots, c = .unblock slot.id ∧ slot.waiting = true

theorem Stopped.killed {s s' : Scheduler σ} (h : s.Stopped s') : s'.Killed where
  stopped := h.running
  slots slot hmem := by
    rw [h.slots] at hmem
    obtain ⟨alive, -, rfl⟩ := List.mem_map.mp hmem
    exact alive.isKilled_kill

theorem killed_stop (s : Scheduler σ) : s.stop.Killed :=
  Stopped.killed (s := s) ⟨rfl, rfl, rfl, rfl⟩

theorem killed_fail (s : Scheduler σ) (kind : BugKind) (message : String) :
    (s.fail kind message).Killed :=
  (stopped_fail s kind message).killed

/-- A killed state stays one under a change of slots that leaves the killed ones killed. -/
theorem Killed.updateSlot {s : Scheduler σ} (h : s.Killed) (id : OperationId) {f : Slot → Slot}
    (hf : ∀ slot, slot.IsKilled → (f slot).IsKilled) : (s.updateSlot id f).Killed where
  stopped := h.stopped
  slots slot hmem := by
    obtain ⟨old, hold, rfl⟩ := List.mem_map.mp hmem
    have hkilled := h.slots old hold
    split
    · exact hf old hkilled
    · exact hkilled

/-- An operation that is registered after the end is killed as well. -/
theorem Killed.create {s : Scheduler σ} (h : s.Killed) (id : OperationId) (name : String) :
    (s.create id name).2.Killed := by
  rcases create_cases s id name with hknown | ⟨-, hfresh⟩
  · rw [hknown]
    exact h
  · rw [hfresh]
    refine ⟨h.stopped, fun slot hmem => ?_⟩
    rcases mem_slots_register.mp hmem with rfl | hold
    · rw [newSlot_of_over h.stopped]
      exact Slot.isKilled_kill _
    · exact h.slots slot hold

theorem Killed.start {s : Scheduler σ} (h : s.Killed) (t : Token) : (s.start t).2.Killed := by
  rcases start_cases s t with ⟨slot, -, -, hstart⟩ | ⟨-, hfail⟩
  · rw [hstart]
    exact h.updateSlot _ fun slot hkilled => ⟨hkilled.active, hkilled.disabled⟩
  · rw [hfail]
    exact killed_fail s _ _

/-- A message arrives after the end: a state stays killed unless the receiver waits for one. -/
theorem Killed.unblock_iff {s : Scheduler σ} (h : s.Killed) (id : OperationId) :
    (s.unblock id).Killed ↔ ∀ slot ∈ s.slots, slot.id = id → slot.waiting = false := by
  constructor
  · intro hkilled slot hmem hid
    have hafter := hkilled.slots _ (List.mem_map_of_mem hmem)
    rw [if_pos hid] at hafter
    exact (h.slots slot hmem).unblock_iff.mp hafter
  · refine fun hwaiting => ⟨h.stopped, fun slot hmem => ?_⟩
    obtain ⟨old, hold, rfl⟩ := List.mem_map.mp hmem
    split
    · rename_i hid
      exact (h.slots old hold).unblock_iff.mpr (hwaiting old hold hid)
    · exact h.slots old hold

/-- Of the operations of a killed state all that wait are canceled. -/
theorem Killed.canceled {s : Scheduler σ} (h : s.Killed) (waiting : List (Nat × OperationId))
    {x : OperationId} (hx : (s.slot? x).isSome) :
    (Callers.mk s waiting).replyTo x = .canceled := by
  obtain ⟨slot, hslot⟩ := Option.isSome_iff_exists.mp hx
  simp [Callers.replyTo, hslot, (h.slots slot (mem_of_slot? hslot)).wake]

/-- A handler that starts in a killed state is canceled. -/
theorem Killed.start_canceled {s : Scheduler σ} (h : s.Killed) (t : Token) :
    (s.start t).1 = .canceled := by
  rcases start_cases s t with ⟨slot, hslot, -, hstart⟩ | ⟨-, hfail⟩
  · rw [hstart]
    exact (h.slots slot (mem_of_slot? hslot)).wake
  · rw [hfail]

/-- After a message for an operation that waits for one, whoever waits for the operation's slot gets
control. -/
theorem Killed.proceed_of_revives {s : Scheduler σ} (h : s.Killed)
    (hids : (s.slots.map Slot.id).Nodup) {slot : Slot} (hmem : slot ∈ s.slots)
    (hwaits : slot.waiting = true) (waiting : List (Nat × OperationId)) :
    (Callers.mk (s.unblock slot.id) waiting).replyTo slot.id = .proceed := by
  have hwake : slot.unblock.wake = .proceed := by
    simp [Slot.unblock, hwaits, Slot.wake, (h.slots slot hmem).active]
  simp [Callers.replyTo, unblock, slot?_updateSlot s slot.id slot.id Slot.id_unblock,
    slot?_of_mem hids hmem, hwake]

variable [Strategy σ]

/-- A call after the end leaves a killed state killed unless it is a message for an operation that
waits for one. -/
theorem Killed.after_iff {s : Scheduler σ} (h : s.Killed) (c : Call) :
    (s.after c).Killed ↔ ¬s.Revives c := by
  -- only the last case is one in which a slot can be revived
  have hother (hc : ∀ id, c ≠ .unblock id) (hkilled : (s.after c).Killed) :
      (s.after c).Killed ↔ ¬s.Revives c :=
    iff_of_true hkilled fun ⟨slot, _, hcall, _⟩ => hc slot.id hcall
  cases c with
  | yield _ _ _ _ | nextBoolean _ _ _ | nextInteger _ _ =>
      refine hother (by simp) ?_
      rw [after_of_over h.stopped rfl]
      exact killed_stop s
  | create id name => exact hother (by simp) (h.create id name)
  | start t => exact hother (by simp) (h.start t)
  | blockOnReceive t =>
      exact hother (by simp) (h.updateSlot _ fun slot hkilled => ⟨hkilled.active, rfl⟩)
  | complete t =>
      exact hother (by simp) (h.updateSlot _ fun slot hkilled => ⟨hkilled.active, rfl⟩)
  | notify _ | send _ _ _ =>
      refine hother (by simp) ?_
      simpa only [Scheduler.after, notify_of_over h.stopped, send_of_over h.stopped] using h
  | failAssertion text => exact hother (by simp) (killed_fail s _ text)
  | reportAssertion _ => exact hother (by simp) ⟨rfl, h.slots⟩
  | stop => exact hother (by simp) (killed_stop s)
  | unblock id =>
      show (s.unblock id).Killed ↔ _
      rw [h.unblock_iff id]
      constructor
      · rintro hwaiting ⟨slot, hmem, hcall, hwaits⟩
        obtain rfl := Call.unblock.inj hcall
        rw [hwaiting slot hmem rfl] at hwaits
        cases hwaits
      · intro hnot slot hmem hid
        by_contra hwaits
        exact hnot ⟨slot, hmem, by rw [hid], by simpa using hwaits⟩

/-- Along calls after the end all states are killed if and only if no message arrives on the way for
an operation that waits for one. -/
theorem Killed.afterAll_iff {s : Scheduler σ} (h : s.Killed) (calls : List Call) :
    (∀ before rest, calls = before ++ rest → (s.afterAll before).Killed) ↔
      ¬s.Meets Revives calls := by
  constructor
  · rintro hall ⟨before, c, rest, rfl, hrevives⟩
    have hafter := hall (before ++ [c]) rest (by simp)
    rw [afterAll_concat, (hall before (c :: rest) rfl).after_iff] at hafter
    exact hafter hrevives
  · intro hnot before
    induction before using List.reverseRecOn with
    | nil => exact fun _ _ => h
    | append_singleton before c ih =>
        intro rest hcalls
        have hsplit : calls = before ++ c :: rest := by simpa using hcalls
        rw [afterAll_concat, (ih (c :: rest) hsplit).after_iff]
        exact fun hrevives => hnot ⟨before, c, rest, hsplit, hrevives⟩

/-- A call that ends the run kills all slots unless it reports an assertion. -/
theorem killed_after_of_ends {s : Scheduler σ} (hrun : s.running = true) {c : Call}
    (hc : ¬∃ text, c = .reportAssertion text) (hends : (s.after c).running = false) :
    (s.after c).Killed := by
  have hrules := rules_after s hc
  generalize s.after c = s' at hrules hends ⊢
  cases hrules with
  | keeps same =>
      rw [same.running, hrun] at hends
      cases hends
  | stops same => exact killed_stop _
  | fails same kind message => exact killed_fail _ _ _
  | aborts same error => exact (stopped_abort _ error).killed
  | explores same => exact (stopped_explored _).killed

/-- Under any strategy and after any calls, every call that ends the run kills all slots, the report
of an assertion apart, and so does every stop. Once all are killed they stay so through further
calls, in every state on the way, if and only if no message arrives on the way for an operation that
waits for one. As long as they are killed, every operation that waits, starts or comes to a
suspension point is canceled; and by such a message an operation is given control again. -/
theorem canceled_iff_not_revived (i : Nat) (config : Configuration) (q : σ) (calls : List Call) :
    let s := (new i config q).afterAll calls
    (∀ c, s.running = true → (¬∃ text, c = .reportAssertion text) →
      (s.after c).running = false → (s.after c).Killed) ∧
    s.stop.Killed ∧
    (s.Killed →
      (∀ more, (∀ before rest, more = before ++ rest → (s.afterAll before).Killed) ↔
        ¬s.Meets Revives more) ∧
      (∀ waiting x, (s.slot? x).isSome → (Callers.mk s waiting).replyTo x = .canceled) ∧
      (∀ t, (s.start t).1 = .canceled) ∧
      (∀ t kind targetKind target, (s.yield t kind targetKind target).1 = .canceled) ∧
      (∀ t max fairness, (s.nextBoolean t max fairness).1 = none) ∧
      (∀ t max, (s.nextInteger t max).1 = none) ∧
      (∀ c, s.Revives c → ∃ x, c = .unblock x ∧
        ∀ waiting, (Callers.mk (s.after c) waiting).replyTo x = .proceed)) := by
  intro s
  have hs : s.Exclusive := (exclusive_new i config q).afterAll calls
  refine ⟨fun c hrun hc hends => killed_after_of_ends hrun hc hends, killed_stop s, fun h => ?_⟩
  have href := refusal?_of_over h.stopped
  refine ⟨h.afterAll_iff, fun waiting x hx => h.canceled waiting hx, h.start_canceled,
    fun t kind targetKind target => ?_, fun t max fairness => ?_, fun t max => ?_, ?_⟩
  · rw [yield_of_refused (href t)]
  · simp only [nextBoolean, href]
  · simp only [nextInteger, href]
  · rintro c ⟨slot, hmem, rfl, hwaits⟩
    exact ⟨slot.id, rfl, h.proceed_of_revives hs.distinct hmem hwaits⟩

/-- An operation waits for a message when the run is stopped, and then the message arrives: the
operation is no longer killed, and its handler, which would have been canceled, gets control. -/
theorem revived_of_lateMessage :
    let s := (new 7 {} (RandomWalk.ofSeed 0 0)).afterAll
      [.create ⟨0⟩ "harness", .create ⟨1⟩ "worker", .blockOnReceive ⟨7, ⟨1⟩⟩, .stop]
    let s' := s.after (.unblock ⟨1⟩)
    (s.slots.all fun slot => slot.active && !slot.enabled) = true ∧
      (s.start ⟨7, ⟨1⟩⟩).1 = .canceled ∧
      (s'.slot? ⟨1⟩).map (·.enabled) = some true ∧ (s'.start ⟨7, ⟨1⟩⟩).1 = .proceed ∧
      (Callers.mk s' [(3, ⟨1⟩)]).replyTo ⟨1⟩ = .proceed := by
  decide +kernel

end Scheduler

end Interleave
