import Interleave.Scheduler.Calls

/-!
# How a scheduler ends a run

A scheduler is stopped when all slots are killed and the run is marked as over
(`Scheduler.Stopped`). That is what refusals, cut-offs, errors of the strategy and the end of all
exploration have in common. A suspension point is refused for one of three reasons
(`Scheduler.Refuses`), where no operation is named the run ends with a livelock, a hot monitor or
no bug at all (`Scheduler.exhaust_cases`), and a dispatch, which heats the monitors
(`Scheduler.heat_cases`), fails if it leaves one overheated (`Scheduler.dispatch_cases`). What holds
of all ends of a run is proved by these cases.
-/

namespace Interleave

namespace Scheduler

variable {σ : Type}

/-- The run is marked as over and all slots are killed. -/
structure Stopped (s s' : Scheduler σ) : Prop where
  id : s'.id = s.id
  running : s'.running = false
  completed : s'.completed = true
  slots : s'.slots = s.slots.map Slot.kill

theorem Stopped.ids {s s' : Scheduler σ} (h : s.Stopped s') :
    s'.slots.map Slot.id = s.slots.map Slot.id := by
  rw [h.slots, List.map_map]
  rfl

theorem stopped_fail (s : Scheduler σ) (kind : BugKind) (message : String) :
    s.Stopped (s.fail kind message) :=
  ⟨rfl, rfl, rfl, rfl⟩

/-- A run without a bug fails with the given one. -/
theorem bug_fail {s : Scheduler σ} (h : s.bug = none) (kind : BugKind) (message : String) :
    (s.fail kind message).bug = some ⟨kind, message⟩ := by
  simp [fail, recordBug, stop, h]

/-- A run without a bug reports the given assertion. -/
theorem bug_reportAssertion {s : Scheduler σ} (h : s.bug = none) (text : String) :
    (s.reportAssertion text).bug = some ⟨.assertion, text⟩ := by
  simp [reportAssertion, recordBug, h]

theorem stopped_explored (s : Scheduler σ) : s.Stopped s.explored :=
  ⟨rfl, rfl, rfl, rfl⟩

theorem stopped_abort (s : Scheduler σ) (error : StrategyError) : s.Stopped (s.abort error) :=
  ⟨rfl, rfl, rfl, rfl⟩

variable [Strategy σ]

/-! ## Refusals -/

/-- A run is cut off with a bug or without one. -/
theorem cutOff_cases (s : Scheduler σ) :
    (∃ message, s.cutOff = { s with boundReached := true }.fail .stepBound message) ∨
      s.cutOff = { s with boundReached := true }.stop := by
  unfold cutOff
  dsimp only
  split
  · exact Or.inl ⟨_, rfl⟩
  · exact Or.inr rfl

theorem stopped_cutOff (s : Scheduler σ) : s.Stopped s.cutOff := by
  rcases cutOff_cases s with ⟨message, hcut⟩ | hcut
  · rw [hcut]
    exact ⟨rfl, rfl, rfl, rfl⟩
  · rw [hcut]
    exact ⟨rfl, rfl, rfl, rfl⟩

/-- A run that is cut off shows no other bug than that. -/
theorem bug_cutOff {s : Scheduler σ} (h : s.bug = none) :
    ∀ bug ∈ s.cutOff.bug, bug.kind = .stepBound := by
  intro bug hbug
  rcases cutOff_cases s with ⟨message, hcut⟩ | hcut
  · have hfail : s.cutOff.bug = some ⟨.stepBound, message⟩ := by
      rw [hcut]
      exact bug_fail h _ _
    rw [hfail, Option.mem_some_iff] at hbug
    rw [← hbug]
  · have hnone : s.cutOff.bug = none := by
      rw [hcut]
      exact h
    rw [hnone] at hbug
    cases hbug

/-- Once the run is over every suspension point is refused. -/
theorem refusal?_of_over {s : Scheduler σ} (hover : s.running = false) (t : Token) :
    s.refusal? t = some s.stop := by
  simp [refusal?, hover]

/-- The reasons to refuse a suspension point, with the state in which it is refused. -/
inductive Refuses (s : Scheduler σ) (t : Token) : Scheduler σ → Prop
  /-- The run has ended before. -/
  | ended (running : s.running = false) : Refuses s t s.stop
  /-- The token is not that of the operation in control. -/
  | misused {m : Misuse} (running : s.running = true) (misuse : s.misuse? t = some m) :
      Refuses s t (s.fail .uncontrolledSynchronization m.message)
  /-- The bound is reached. -/
  | bound (running : s.running = true) (proper : s.misuse? t = none)
      (reached : Strategy.boundReached s.strategy = true) : Refuses s t s.cutOff

theorem refuses_of_refused {s s' : Scheduler σ} {t : Token} (h : s.refusal? t = some s') :
    s.Refuses t s' := by
  unfold refusal? at h
  split at h
  · rename_i hrun
    cases h
    exact .ended (by simpa using hrun)
  · rename_i hrun
    have hrun : s.running = true := by simpa using hrun
    split at h
    · rename_i m hmisuse
      cases h
      exact .misused hrun hmisuse
    · rename_i hproper
      split at h
      · rename_i hreached
        cases h
        exact .bound hrun hproper hreached
      · cases h

theorem Refuses.stopped {s s' : Scheduler σ} {t : Token} (h : s.Refuses t s') : s.Stopped s' := by
  cases h with
  | ended => exact ⟨rfl, rfl, rfl, rfl⟩
  | misused => exact stopped_fail s _ _
  | bound => exact stopped_cutOff s

/-- A suspension point is admitted if there is no reason to refuse it. -/
theorem admitted_of_refusal?_eq_none {s : Scheduler σ} {t : Token} (h : s.refusal? t = none) :
    s.running = true ∧ s.misuse? t = none ∧ Strategy.boundReached s.strategy = false := by
  unfold refusal? at h
  split at h
  · cases h
  · rename_i hrun
    split at h
    · cases h
    · rename_i hmis
      split at h
      · cases h
      · rename_i hbound
        exact ⟨by simpa using hrun, hmis, by simpa using hbound⟩

/-! ## The end of all exploration -/

/-- Where no operation is named, the run ends with a livelock, with a monitor that is still hot or
without a bug. It has a bug only if nothing was enabled. -/
theorem exhaust_cases (s : Scheduler σ) (choices : List Snapshot) :
    (∃ names, (∀ op ∈ choices, op.enabled = false) ∧
        s.exhaust choices = s.fail .livelock (stuckWaiting names)) ∨
      (∃ monitor, (∀ op ∈ choices, op.enabled = false) ∧
        s.exhaust choices = s.fail (.liveness monitor) (endedHot monitor)) ∨
      s.exhaust choices = s.explored := by
  have hdisabled : (!choices.any (·.enabled)) = true → ∀ op ∈ choices, op.enabled = false := by
    simp
  unfold exhaust
  dsimp only
  split
  · rename_i hstuck
    exact Or.inl ⟨_, hdisabled (Bool.and_eq_true_iff.mp hstuck).1, rfl⟩
  · split
    · split
      · rename_i hstuck
        exact Or.inr (Or.inl ⟨_, hdisabled (Bool.and_eq_true_iff.mp hstuck).1, rfl⟩)
      · exact Or.inr (Or.inr rfl)
    · exact Or.inr (Or.inr rfl)

theorem stopped_exhaust (s : Scheduler σ) (choices : List Snapshot) :
    s.Stopped (s.exhaust choices) := by
  rcases exhaust_cases s choices with ⟨names, -, hend⟩ | ⟨monitor, -, hend⟩ | hend
  · rw [hend]
    exact stopped_fail s _ _
  · rw [hend]
    exact stopped_fail s _ _
  · rw [hend]
    exact stopped_explored s

/-- To end the run leaves strategy and monitors as they are. -/
theorem strategy_exhaust (s : Scheduler σ) (choices : List Snapshot) :
    (s.exhaust choices).strategy = s.strategy := by
  rcases exhaust_cases s choices with ⟨names, -, hend⟩ | ⟨monitor, -, hend⟩ | hend <;> rw [hend] <;>
    rfl

theorem monitors_exhaust (s : Scheduler σ) (choices : List Snapshot) :
    (s.exhaust choices).hotMonitors = s.hotMonitors := by
  rcases exhaust_cases s choices with ⟨names, -, hend⟩ | ⟨monitor, -, hend⟩ | hend <;> rw [hend] <;>
    rfl

/-- A bug that is found when the strategy declines is a livelock or a hot monitor, and nothing is
enabled. -/
theorem bug_exhaust {s : Scheduler σ} (h : s.bug = none) (choices : List Snapshot) :
    ∀ bug ∈ (s.exhaust choices).bug,
      (bug.kind = .livelock ∨ ∃ monitor, bug.kind = .liveness monitor) ∧
        ∀ op ∈ choices, op.enabled = false := by
  intro bug hbug
  rcases exhaust_cases s choices with ⟨names, hdisabled, hend⟩ | ⟨monitor, hdisabled, hend⟩ | hend
  · rw [hend, bug_fail h, Option.mem_some_iff] at hbug
    exact ⟨by simp [← hbug], hdisabled⟩
  · rw [hend, bug_fail h, Option.mem_some_iff] at hbug
    exact ⟨by simp [← hbug], hdisabled⟩
  · have hnone : s.explored.bug = none := h
    rw [hend, hnone] at hbug
    cases hbug

/-! ## Overheated monitors -/

/-- Heat changes nothing but the temperatures, which all rise or all stay. -/
theorem heat_cases (s : Scheduler σ) :
    s.heat = s ∨ s.heat = { s with hotMonitors := s.hotMonitors.map fun (m, n) => (m, n + 1) } := by
  unfold heat
  split
  · exact Or.inl rfl
  · exact Or.inr rfl

/-- A monitor has been hot for too long at a scheduling point. -/
def IsOverheated (s : Scheduler σ) : Prop :=
  ∃ monitor, s.bug = some ⟨.liveness monitor, overheated monitor⟩

/-- A dispatch that leaves a monitor overheated cancels the caller. -/
theorem dispatch_of_overheated {s s₁ : Scheduler σ} {current next : OperationId} {monitor : String}
    (hheat : { s with schedule := s.schedule.push (.schedule next) }.heat = s₁)
    (hfound : s₁.overheatedMonitor? = some monitor) :
    s.dispatch current next =
      (.canceled, s₁.fail (.liveness monitor) (overheated monitor)) := by
  subst hheat
  simp only [dispatch, hfound]

/-- A dispatch that leaves no monitor overheated hands over control. -/
theorem dispatch_of_cool {s s₁ : Scheduler σ} {current next : OperationId}
    (hheat : { s with schedule := s.schedule.push (.schedule next) }.heat = s₁)
    (hnone : s₁.overheatedMonitor? = none) :
    s.dispatch current next = s₁.handOver current next := by
  subst hheat
  simp only [dispatch, hnone]

/-- A dispatch heats the monitors. It ends the run if one is too hot then, or hands over control. -/
theorem dispatch_cases (s : Scheduler σ) (current next : OperationId) :
    let s₁ := { s with schedule := s.schedule.push (.schedule next) }.heat
    (∃ monitor, s₁.overheatedMonitor? = some monitor ∧
        s.dispatch current next =
          (.canceled, s₁.fail (.liveness monitor) (overheated monitor))) ∨
      s.dispatch current next = s₁.handOver current next := by
  intro s₁
  cases hfound : s₁.overheatedMonitor? with
  | some monitor => exact Or.inl ⟨monitor, rfl, dispatch_of_overheated rfl hfound⟩
  | none => exact Or.inr (dispatch_of_cool rfl hfound)

/-- The two bugs of a hot monitor are told apart by their messages. -/
theorem overheated_ne_endedHot (monitor : String) : overheated monitor ≠ endedHot monitor := by
  intro h
  have hlength := congrArg String.length h
  simp only [overheated, endedHot, String.length_append] at hlength
  have hother : "' detected potential liveness bug in hot state.".length ≠
      "' detected liveness bug in hot state at the end of program execution.".length := by
    decide
  omega

/-- No monitor overheats where the strategy declines. -/
theorem not_isOverheated_exhaust {s : Scheduler σ} (h : s.bug = none) (choices : List Snapshot) :
    ¬(s.exhaust choices).IsOverheated := by
  rintro ⟨monitor, hbug⟩
  rcases exhaust_cases s choices with ⟨names, -, hend⟩ | ⟨other, -, hend⟩ | hend
  · rw [hend, bug_fail h] at hbug
    cases hbug
  · rw [hend, bug_fail h] at hbug
    simp only [Option.some.injEq, Bug.mk.injEq, BugKind.liveness.injEq] at hbug
    obtain ⟨rfl, hmessage⟩ := hbug
    exact overheated_ne_endedHot _ hmessage.symm
  · have hnone : s.explored.bug = none := h
    rw [hend, hnone] at hbug
    cases hbug

end Scheduler

end Interleave
