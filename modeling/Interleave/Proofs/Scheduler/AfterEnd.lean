import Interleave.Scheduler.Callers
import Interleave.Proofs.Scheduler.ExclusiveControl

/-!
# After the end of a run

Once a run is over, a scheduler is left alone by everything that happens to it later. Every
suspension point is refused (`Scheduler.refusal?_of_over`), no call says anything to the strategy,
and no call changes what the strategy knows or what the outcome is read off (`Scheduler.Rests`).
A call that was waiting when the run ended is canceled as soon as it gets a reply at all, because
slots are no longer activated but by killing them (`Scheduler.withholds_after`). Both ways to end a
run are covered, that with killed slots and that of a reported assertion, which leaves them alive.
-/

namespace Interleave

namespace Scheduler

variable {σ : Type}

/-- Nothing that the strategy knows or that the outcome is read off has changed. -/
structure Rests (s s' : Scheduler σ) : Prop where
  strategy : s'.strategy = s.strategy
  schedule : s'.schedule = s.schedule
  fullyExplored : s'.fullyExplored = s.fullyExplored
  boundReached : s'.boundReached = s.boundReached
  error : s'.error = s.error
  hotMonitors : s'.hotMonitors = s.hotMonitors

theorem Rests.refl (s : Scheduler σ) : s.Rests s :=
  ⟨rfl, rfl, rfl, rfl, rfl, rfl⟩

theorem Rests.trans {s s' s'' : Scheduler σ} (h : s.Rests s') (h' : s'.Rests s'') : s.Rests s'' :=
  ⟨h'.strategy.trans h.strategy, h'.schedule.trans h.schedule,
    h'.fullyExplored.trans h.fullyExplored, h'.boundReached.trans h.boundReached,
    h'.error.trans h.error, h'.hotMonitors.trans h.hotMonitors⟩

/-- The operation's slot, if there is one, does not give control to a call that waits for it. -/
def Withholds (s : Scheduler σ) (x : OperationId) : Prop :=
  ∀ slot, s.slot? x = some slot → slot.wake ≠ .proceed

theorem Withholds.replyTo_ne_proceed {s : Scheduler σ} {x : OperationId} (h : s.Withholds x)
    (waiting : List (Nat × OperationId)) : (Callers.mk s waiting).replyTo x ≠ .proceed := by
  unfold Callers.replyTo
  cases hslot : s.slot? x with
  | none => simp
  | some slot => exact h slot hslot

theorem parked_of_replyTo {c : Callers σ} {x : OperationId} (h : c.replyTo x = .parked) :
    ∀ slot, c.scheduler.slot? x = some slot → slot.active = false := by
  intro slot hslot
  by_contra hactive
  have hactive : slot.active = true := by simpa using hactive
  simp only [Callers.replyTo, hslot, Option.map_some, Option.getD_some, Slot.wake, hactive,
    if_true] at h
  split at h <;> cases h

theorem slot?_stop (s : Scheduler σ) (x : OperationId) :
    s.stop.slot? x = (s.slot? x).map Slot.kill :=
  List.find?_map

theorem withholds_of_killed {s s' : Scheduler σ} {x : OperationId}
    (h : s'.slot? x = (s.slot? x).map Slot.kill) : s'.Withholds x := by
  intro slot hslot
  rw [h, Option.map_eq_some_iff] at hslot
  obtain ⟨alive, -, rfl⟩ := hslot
  simp [Slot.wake, Slot.kill]

/-- A slot that is not active does not become so by a change of other flags. -/
theorem withholds_updateSlot {s : Scheduler σ} {x : OperationId}
    (hparked : ∀ slot, s.slot? x = some slot → slot.active = false) (id : OperationId)
    {f : Slot → Slot} (hid : ∀ slot, (f slot).id = slot.id)
    (hactive : ∀ slot, (f slot).active = slot.active) : (s.updateSlot id f).Withholds x := by
  intro slot hslot
  have hinactive : slot.active = false := by
    rw [slot?_updateSlot s id x hid] at hslot
    split at hslot
    · obtain ⟨old, hold, rfl⟩ := Option.map_eq_some_iff.mp hslot
      rw [hactive]
      exact hparked old hold
    · exact hparked slot hslot
  simp [Slot.wake, hinactive]

/-- An operation that is registered after the end is killed. -/
theorem withholds_create {s : Scheduler σ} (hover : s.running = false) {x : OperationId}
    (hparked : ∀ slot, s.slot? x = some slot → slot.active = false) (id : OperationId)
    (name : String) : (s.create id name).2.Withholds x := by
  intro slot hslot
  rcases create_cases s id name with hknown | ⟨hnone, hfresh⟩
  · rw [hknown] at hslot
    simp [Slot.wake, hparked slot hslot]
  · rw [hfresh, slot?_register hnone] at hslot
    split at hslot
    · obtain rfl := Option.some.inj hslot
      simp [newSlot_of_over hover, Slot.wake, Slot.kill]
    · simp [Slot.wake, hparked slot hslot]

variable [Strategy σ]

theorem after_of_over {s : Scheduler σ} (hover : s.running = false) {c : Call} {t : Token}
    (hc : c.suspends? = some t) : s.after c = s.stop := by
  have href := fun t' => s.refusal?_of_over hover t'
  cases c with
  | yield _ _ _ _ | nextBoolean _ _ _ | nextInteger _ _ =>
      simp only [after, yield, nextBoolean, nextInteger, href]
  | create _ _ | start _ | blockOnReceive _ | unblock _ | complete _ | notify _ | send _ _ _
  | failAssertion _ | reportAssertion _ | stop => cases hc

theorem rests_after {s : Scheduler σ} (hover : s.running = false) (c : Call) :
    s.Rests (s.after c) := by
  have hstop : s.Rests s.stop := ⟨rfl, rfl, rfl, rfl, rfl, rfl⟩
  cases c with
  | yield t _ _ _ | nextBoolean t _ _ | nextInteger t _ =>
      rw [after_of_over hover rfl]
      exact hstop
  | create id name =>
      rw [after]
      rcases create_cases s id name with hknown | ⟨-, hfresh⟩
      · rw [hknown]
        exact .refl s
      · rw [hfresh]
        exact ⟨rfl, rfl, rfl, rfl, rfl, rfl⟩
  | start t =>
      rw [after]
      rcases start_cases s t with ⟨slot, -, -, hstart⟩ | ⟨-, hfail⟩
      · rw [hstart]
        exact ⟨rfl, rfl, rfl, rfl, rfl, rfl⟩
      · rw [hfail]
        exact ⟨rfl, rfl, rfl, rfl, rfl, rfl⟩
  | notify n =>
      rw [after, notify_of_over hover]
      exact .refl s
  | send sender target event =>
      rw [after, send_of_over hover]
      exact .refl s
  | blockOnReceive _ | unblock _ | complete _ | failAssertion _ | reportAssertion _ | stop =>
      exact ⟨rfl, rfl, rfl, rfl, rfl, rfl⟩

/-- A call that waits when the run is over is not given control by another call. -/
theorem withholds_after {s : Scheduler σ} (hover : s.running = false) {x : OperationId}
    (hparked : ∀ slot, s.slot? x = some slot → slot.active = false) (c : Call) :
    (s.after c).Withholds x := by
  cases c with
  | yield _ _ _ _ | nextBoolean _ _ _ | nextInteger _ _ =>
      rw [after_of_over hover rfl]
      exact withholds_of_killed (s.slot?_stop x)
  | create id name => exact withholds_create hover hparked id name
  | start t =>
      rw [after]
      rcases start_cases s t with ⟨slot, -, -, hstart⟩ | ⟨-, hfail⟩
      · rw [hstart]
        exact withholds_updateSlot hparked _ (fun _ => rfl) fun _ => rfl
      · rw [hfail]
        exact withholds_of_killed (s.slot?_stop x)
  | blockOnReceive _ | complete _ =>
      exact withholds_updateSlot hparked _ (fun _ => rfl) fun _ => rfl
  | unblock id =>
      exact withholds_updateSlot hparked id Slot.id_unblock Slot.active_unblock
  | failAssertion _ | stop => exact withholds_of_killed (s.slot?_stop x)
  | notify _ | send _ _ _ | reportAssertion _ =>
      intro slot hslot
      simp only [after, notify_of_over hover, send_of_over hover] at hslot
      simp [Slot.wake, hparked slot hslot]

theorem rests_afterAll {s : Scheduler σ} (hover : s.running = false) (calls : List Call) :
    s.Rests (s.afterAll calls) := by
  induction calls generalizing s with
  | nil => exact .refl s
  | cons c calls ih =>
      exact (rests_after hover c).trans (ih ((passage_after s c).silent hover).2)

/-- Of the calls that wait when the run is over, those that another call releases are canceled. -/
theorem canceled_of_release {c : Callers σ} (hover : c.scheduler.running = false)
    (hwaiting : ∀ w ∈ c.waiting, c.replyTo w.2 = .parked) (call : Call) :
    ∀ reply ∈ (Callers.mk (c.scheduler.after call) c.waiting).release.1, reply.2 = .canceled := by
  intro reply hreply
  simp only [Callers.release, List.partition_eq_filter_filter, List.mem_map, List.mem_filter]
    at hreply
  obtain ⟨w, ⟨hw, hreleased⟩, rfl⟩ := hreply
  have hwithheld := withholds_after hover (parked_of_replyTo (hwaiting w hw)) call
  have hproceed := hwithheld.replyTo_ne_proceed c.waiting
  have hparked : (Callers.mk (c.scheduler.after call) c.waiting).replyTo w.2 ≠ .parked := by
    simpa using hreleased
  show (Callers.mk (c.scheduler.after call) c.waiting).replyTo w.2 = .canceled
  cases hcase : (Callers.mk (c.scheduler.after call) c.waiting).replyTo w.2 with
  | proceed => exact absurd hcase hproceed
  | canceled => rfl
  | parked => exact absurd hcase hparked

/-- Nothing moves after the end of a run. Whatever calls are made from then on, with whatever
tokens, the run stays over, nothing is said to the strategy, and strategy, schedule, marks, error,
temperatures and a bug found before stay as they are. In every state from then on a suspension point
cancels its caller at once, and of the calls that wait there, those that a further call releases
are canceled. Calls still wait there only behind a `reportAssertion`: every other end makes all
slots active, and so releases them itself. -/
theorem nothing_moves_after_end {s : Scheduler σ} (hover : s.running = false)
    (calls : List Call) :
    let s' := s.afterAll calls
    s'.running = false ∧ s.saidAll calls = [] ∧ s.Rests s' ∧
    (∀ bug, s.bug = some bug → s'.bug = some bug) ∧
    (∀ t kind targetKind target, (s'.yield t kind targetKind target).1 = .canceled) ∧
    (∀ t max fairness, (s'.nextBoolean t max fairness).1 = none) ∧
    (∀ t max, (s'.nextInteger t max).1 = none) ∧
    (∀ waiting : List (Nat × OperationId),
      (∀ w ∈ waiting, (Callers.mk s' waiting).replyTo w.2 = .parked) →
      ∀ c, ∀ reply ∈ (Callers.mk (s'.after c) waiting).release.1, reply.2 = .canceled) := by
  intro s'
  have hpassage : s.Passage (s.saidAll calls) s' := Makes.passage ⟨calls, rfl, rfl⟩
  obtain ⟨hsilent, hover'⟩ := hpassage.silent hover
  have href := refusal?_of_over hover'
  refine ⟨hover', hsilent, rests_afterAll hover calls, hpassage.bug,
    fun t kind targetKind target => ?_, fun t max fairness => ?_, fun t max => ?_,
    fun waiting hwaiting c => ?_⟩
  · rw [yield_of_refused (href t)]
  · simp only [nextBoolean, href]
  · simp only [nextInteger, href]
  · exact canceled_of_release (c := ⟨s', waiting⟩) hover' hwaiting c

/-- The operation that has given up control waits, the other one reports a failed assertion, and
then calls of all kinds are made. -/
theorem nothing_moves_after_end_of_reported :
    let s := (new 7 {} pongFirst).afterAll (yielded ++ [.reportAssertion "lost"])
    let s' := s.afterAll [.notify (.started ⟨1⟩ none), .send ⟨1⟩ ⟨0⟩ ⟨"Ball", none, none⟩,
      .create ⟨2⟩ "Late"]
    s.running = false ∧ s.bug = some ⟨.assertion, "lost"⟩ ∧ s'.bug = some ⟨.assertion, "lost"⟩ ∧
      s'.schedule = #[.schedule ⟨1⟩] ∧
      (s'.yield ⟨7, ⟨1⟩⟩ .yield .operation ⟨1⟩).1 = .canceled ∧
      (Callers.mk s' [(3, ⟨0⟩)]).replyTo ⟨0⟩ = .parked ∧
      (Callers.mk (s'.after (.nextInteger ⟨7, ⟨1⟩⟩ 3)) [(3, ⟨0⟩)]).release.1 ≠ [] ∧
      ∀ reply ∈ (Callers.mk (s'.after (.nextInteger ⟨7, ⟨1⟩⟩ 3)) [(3, ⟨0⟩)]).release.1,
        reply.2 = .canceled := by
  intro s s'
  have hover : s.running = false := by decide +kernel
  have hbug : s.bug = some ⟨.assertion, "lost"⟩ := by decide +kernel
  have hlogged : s.schedule = #[.schedule ⟨1⟩] := by decide +kernel
  have hparked : (Callers.mk s' [(3, ⟨0⟩)]).replyTo ⟨0⟩ = .parked := by decide +kernel
  obtain ⟨-, -, hrests, hstays, hyield, -, -, hwaiting⟩ := nothing_moves_after_end hover
    [.notify (.started ⟨1⟩ none), .send ⟨1⟩ ⟨0⟩ ⟨"Ball", none, none⟩, .create ⟨2⟩ "Late"]
  refine ⟨hover, hbug, hstays _ hbug, hrests.schedule.trans hlogged, hyield _ _ _ _, hparked,
    by decide +kernel, hwaiting [(3, ⟨0⟩)] (fun w hw => ?_) _⟩
  obtain rfl := List.mem_singleton.mp hw
  exact hparked

end Scheduler

end Interleave
