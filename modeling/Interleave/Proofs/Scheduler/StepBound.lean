import Interleave.Proofs.Scheduler.LegalRuns

/-!
# The step bound

A run is cut off at exactly one place: where the operation in control makes a request while the
strategy has reached its bound (`Scheduler.AtBound`). A run is marked as cut off if and only if it
has come to that place (`Scheduler.boundReached_afterAll_iff`), and decisions are logged short of it
only (`Scheduler.boundReached_of_push`). A random walk counts the decisions it answers, and all of
them are logged (`Walk.Counts`), so that under a random walk the place is where as many
decisions are logged as the bound allows (`Scheduler.step_bound_exact`).
-/

namespace Interleave

namespace Scheduler

variable {σ : Type}

/-- The operation in control makes one more request while the run goes on with the given number of
decisions logged. -/
def AsksBehind (bound : Nat) (s : Scheduler σ) (c : Call) : Prop :=
  ∃ t, c.suspends? = some t ∧ s.running = true ∧ s.Admits t ∧ s.schedule.size = bound

variable [Strategy σ]

/-- The operation in control makes a request while the run goes on and the strategy has reached its
bound. -/
def AtBound (s : Scheduler σ) (c : Call) : Prop :=
  ∃ t, c.suspends? = some t ∧ s.running = true ∧ s.Admits t ∧
    Strategy.boundReached s.strategy = true

variable {s : Scheduler σ} {c : Call} {t : Token}

theorem refusal?_of_atBound (hrun : s.running = true) (hadmits : s.Admits t)
    (hreached : Strategy.boundReached s.strategy = true) : s.refusal? t = some s.cutOff := by
  have hproper : s.misuse? t = none := admits_iff.mp hadmits
  simp [refusal?, hrun, hproper, hreached]

/-- A refused request leaves its caller with the state in which it is refused. -/
theorem after_of_refused {s' : Scheduler σ} (hc : c.suspends? = some t)
    (h : s.refusal? t = some s') : s.after c = s' := by
  cases c with
  | yield _ _ _ _ | nextBoolean _ _ _ | nextInteger _ _ =>
      cases hc
      simp only [after, yield, nextBoolean, nextInteger, h]
  | create _ _ | start _ | blockOnReceive _ | unblock _ | complete _ | notify _ | send _ _ _
  | failAssertion _ | reportAssertion _ | stop => cases hc

theorem after_of_atBound (h : s.AtBound c) : s.after c = s.cutOff := by
  obtain ⟨t, hc, hrun, hadmits, hreached⟩ := h
  exact after_of_refused hc (refusal?_of_atBound hrun hadmits hreached)

theorem boundReached_cutOff (s : Scheduler σ) : s.cutOff.boundReached = true := by
  rcases cutOff_cases s with ⟨message, hcut⟩ | hcut <;> rw [hcut] <;> rfl

/-! ## What marks a run as cut off -/

theorem boundReached_dispatch (s : Scheduler σ) (current next : OperationId) :
    (s.dispatch current next).2.boundReached = s.boundReached := by
  let s₁ := { s with schedule := s.schedule.push (.schedule next) }
  have hheat : s₁.heat.boundReached = s.boundReached := by
    rcases heat_cases s₁ with hheat | hheat <;> rw [hheat]
  rcases dispatch_cases s current next with ⟨monitor, -, hend⟩ | hgoes
  · rw [hend]
    exact hheat
  · rw [hgoes]
    rcases handOver_cases s₁.heat current next with hstay | ⟨-, hpass⟩
    · rw [hstay]
      exact hheat
    · rw [hpass]
      exact hheat

theorem boundReached_resolve (s : Scheduler σ) (current : OperationId) (choices : List Snapshot)
    (answer : Answer OperationId) :
    (s.resolve current choices answer).2.boundReached = s.boundReached := by
  rcases resolve_cases s current choices answer with
    ⟨e, hend⟩ | ⟨-, hend⟩ | ⟨next, -, hdispatch⟩
  · rw [hend]
    rfl
  · rw [hend]
    rcases exhaust_cases s choices with ⟨names, -, hend⟩ | ⟨monitor, -, hend⟩ | hend <;>
      rw [hend] <;> rfl
  · rw [hdispatch]
    exact boundReached_dispatch s current next

theorem boundReached_settle {α : Type} (s : Scheduler σ) (t : Token) (toChoice : α → Choice)
    (toDecision : α → Decision) (answer : Answer α) :
    (s.settle t toChoice toDecision answer).2.boundReached = s.boundReached := by
  rcases answer with e | _ | value <;> rfl

/-- Of all refusals only that at the bound marks the run. -/
theorem boundReached_of_refused {s' : Scheduler σ} (hc : c.suspends? = some t)
    (h : s.refusal? t = some s') (hnot : ¬s.AtBound c) : s'.boundReached = s.boundReached := by
  cases refuses_of_refused h with
  | ended => rfl
  | misused => rfl
  | bound hrun hproper hreached => exact absurd ⟨t, hc, hrun, admits_iff.mpr hproper, hreached⟩ hnot

/-- An answered request does not mark the run. -/
theorem boundReached_of_admitted (hc : c.suspends? = some t) (h : s.refusal? t = none) :
    (s.after c).boundReached = s.boundReached := by
  cases c with
  | yield t kind targetKind target =>
      cases hc
      show (s.yield t kind targetKind target).2.boundReached = s.boundReached
      rw [yield_of_admitted h]
      exact boundReached_resolve _ _ _ _
  | nextBoolean t max fairness =>
      cases hc
      show (s.nextBoolean t max fairness).2.boundReached = s.boundReached
      rw [nextBoolean, h]
      exact boundReached_settle _ _ _ _ _
  | nextInteger t max =>
      cases hc
      show (s.nextInteger t max).2.boundReached = s.boundReached
      rw [nextInteger, h]
      exact boundReached_settle _ _ _ _ _
  | create _ _ | start _ | blockOnReceive _ | unblock _ | complete _ | notify _ | send _ _ _
  | failAssertion _ | reportAssertion _ | stop => cases hc

/-- Calls that are no requests do not mark the run. -/
theorem boundReached_of_unsuspending (hc : c.suspends? = none) :
    (s.after c).boundReached = s.boundReached := by
  cases c with
  | create id name =>
      show (s.create id name).2.boundReached = s.boundReached
      rcases create_cases s id name with hknown | ⟨-, hfresh⟩
      · rw [hknown]
      · rw [hfresh]
        rfl
  | start t =>
      show (s.start t).2.boundReached = s.boundReached
      rcases start_cases s t with ⟨slot, -, -, hstart⟩ | ⟨-, hfail⟩
      · rw [hstart]
        rfl
      · rw [hfail]
        rfl
  | notify n =>
      show (s.notify n).boundReached = s.boundReached
      cases hrun : s.running with
      | true => rw [notify_of_running hrun]
      | false => rw [notify_of_over hrun]
  | send sender target event =>
      show (s.send sender target event).2.boundReached = s.boundReached
      cases hrun : s.running with
      | true => rw [send_of_running hrun]
      | false => rw [send_of_over hrun]
  | blockOnReceive _ | unblock _ | complete _ | failAssertion _ | reportAssertion _ | stop => rfl
  | yield _ _ _ _ | nextBoolean _ _ _ | nextInteger _ _ => cases hc

theorem boundReached_after (h : ¬s.AtBound c) : (s.after c).boundReached = s.boundReached := by
  cases hc : c.suspends? with
  | none => exact boundReached_of_unsuspending hc
  | some t =>
      cases href : s.refusal? t with
      | none => exact boundReached_of_admitted hc href
      | some s' =>
          rw [after_of_refused hc href]
          exact boundReached_of_refused hc href h

/-- A run is marked as cut off if and only if it has come to its bound. -/
theorem boundReached_afterAll_iff (s : Scheduler σ) (calls : List Call) :
    (s.afterAll calls).boundReached = true ↔
      s.boundReached = true ∨ s.Meets AtBound calls := by
  induction calls using List.reverseRecOn with
  | nil => simp
  | append_singleton calls c ih =>
      rw [afterAll_concat, meets_concat, ← or_assoc, ← ih]
      by_cases hbound : (s.afterAll calls).AtBound c
      · rw [after_of_atBound hbound, boundReached_cutOff]
        exact iff_of_true rfl (Or.inr hbound)
      · rw [boundReached_after hbound, or_iff_left hbound]

theorem schedule_of_refused {s' : Scheduler σ} (h : s.refusal? t = some s') :
    s'.schedule = s.schedule := by
  cases refuses_of_refused h with
  | ended => rfl
  | misused => rfl
  | bound => rcases cutOff_cases s with ⟨message, hcut⟩ | hcut <;> rw [hcut] <;> rfl

omit [Strategy σ] in
theorem Enters.suspends {d : Decision} (h : s.Enters c d) : ∃ t, c.suspends? = some t := by
  cases h with
  | schedule | boolean | fairBoolean | integer => exact ⟨_, rfl⟩

/-- A call logs nothing, or it logs one decision short of the bound. -/
theorem schedule_after_of_bound (s : Scheduler σ) (c : Call) :
    (s.after c).schedule = s.schedule ∨
      Strategy.boundReached s.strategy = false ∧
        ∃ d, (s.after c).schedule = s.schedule.push d := by
  rcases schedule_after s c with hsame | ⟨d, hpush, henters⟩
  · exact Or.inl hsame
  · obtain ⟨t, hc⟩ := henters.suspends
    cases href : s.refusal? t with
    | some s' =>
        rw [after_of_refused hc href]
        exact Or.inl (schedule_of_refused href)
    | none => exact Or.inr ⟨(admitted_of_refusal?_eq_none href).2.2, d, hpush⟩

/-- A run that comes to its bound shows that bound as its bug, if that counts as one, and no bug
otherwise. -/
theorem bug_of_atBound (hopen : s.Open) :
    s.cutOff.bug =
      if s.config.boundIsBug then
        some ⟨.stepBound, "Scheduling steps bound of " ++
          Text.showNat (s.config.stepBound (Strategy.isFair s.strategy)) ++ " reached."⟩
      else none := by
  unfold cutOff
  dsimp only
  split
  · exact bug_fail hopen.bug _ _
  · exact hopen.bug

theorem fullyExplored_cutOff (s : Scheduler σ) : s.cutOff.fullyExplored = s.fullyExplored := by
  rcases cutOff_cases s with ⟨message, hcut⟩ | hcut <;> rw [hcut] <;> rfl

end Scheduler

/-! ## Random walks -/

namespace Walk

variable {γ : Type}

/-- What a dialogue makes of a walk: the decisions that it has answered are counted. -/
structure Counts (w : Walk γ) (l : List Exchange) (w' : Walk γ) : Prop where
  steps : w'.steps = w.steps + (verdicts l).length
  maxSteps : w'.maxSteps = w.maxSteps

theorem Counts.append {w w' w'' : Walk γ} {l l' : List Exchange} (h : w.Counts l w')
    (h' : w'.Counts l' w'') : w.Counts (l ++ l') w'' where
  steps := by rw [h'.steps, h.steps, verdicts_append, List.length_append, Nat.add_assoc]
  maxSteps := h'.maxSteps.trans h.maxSteps

variable [Generator γ]

/-- A random walk at the start of a run under the configuration: a new one, or one with its bound
that has been prepared, whatever it was asked before. -/
inductive Opens (config : Configuration) : Walk γ → Prop
  | fresh : Opens config (ofConfiguration config)
  | prepared {w : Walk γ} (bound : w.maxSteps = config.stepBound true) :
      Opens config (Strategy.prepare w).2

theorem Opens.steps {config : Configuration} {w : Walk γ} (h : Opens config w) :
    w.steps = 0 := by
  cases h with
  | fresh | prepared => rfl

theorem Opens.maxSteps {config : Configuration} {w : Walk γ} (h : Opens config w) :
    w.maxSteps = config.maxFairSteps := by
  cases h with
  | fresh => rfl
  | prepared bound => exact bound

/-- A walk draws one of the enabled operations, or stays as it is if there is none. -/
theorem pick_cases (w : Walk γ) (choices : List Snapshot) :
    w.pick choices = (none, w) ∨ ∃ id stream, w.pick choices = (some id, w.advance stream) := by
  unfold pick
  dsimp only
  split
  · exact Or.inl rfl
  · rename_i hnonempty
    have hpos : 0 < (enabledIds choices).length := by
      apply List.length_pos_iff.mpr
      intro hnil
      rw [hnil] at hnonempty
      exact hnonempty rfl
    have hlt := Generator.below_lt .full hpos w.stream
    rw [List.getElem?_eq_getElem hlt]
    exact Or.inr ⟨_, _, rfl⟩

theorem counts_of_moves {w w' : Walk γ} {e : Exchange} (h : e.Moves w w') :
    w.Counts [e] w' := by
  cases e with
  | operation choices current answer =>
      have h : (.ok (w.pick choices).1, (w.pick choices).2) = (answer, w') := h
      -- nothing is counted where no operation is enabled
      rcases w.pick_cases choices with hpick | ⟨id, stream, hpick⟩
      · rw [hpick] at h
        cases h
        exact ⟨rfl, rfl⟩
      · rw [hpick] at h
        cases h
        exact ⟨rfl, rfl⟩
  | boolean max answer =>
      obtain ⟨rfl, rfl⟩ := Prod.mk.inj h
      exact ⟨rfl, rfl⟩
  | integer max answer =>
      obtain ⟨rfl, rfl⟩ := Prod.mk.inj h
      have hroll : (w.roll max).2.steps = w.steps + 1 ∧ (w.roll max).2.maxSteps = w.maxSteps := by
        unfold roll
        split <;> exact ⟨rfl, rfl⟩
      exact ⟨hroll.1, hroll.2⟩
  | notice n =>
      obtain rfl := h
      exact ⟨rfl, rfl⟩
  | send sender target event delivery =>
      obtain ⟨-, rfl⟩ := Prod.mk.inj h
      exact ⟨rfl, rfl⟩
  | bound reached | fairness fair =>
      rw [h.2]
      exact ⟨rfl, rfl⟩
  | logged d =>
      obtain rfl := h
      exact ⟨rfl, rfl⟩

theorem counts_of_follows {w w' : Walk γ} {l : List Exchange} (h : Follows w l w') :
    w.Counts l w' := by
  induction l generalizing w with
  | nil =>
      obtain rfl := h
      exact ⟨rfl, rfl⟩
  | cons e l ih =>
      obtain ⟨middle, he, hl⟩ := h
      exact (counts_of_moves he).append (ih hl)

end Walk

namespace Scheduler

variable {γ : Type} [Generator γ]

theorem error_resolve {σ : Type} [Strategy σ] (s : Scheduler σ) (current : OperationId)
    {choices : List Snapshot} {answer : Answer OperationId}
    (h : (Exchange.operation choices current answer).Legal) :
    (s.resolve current choices answer).2.error = s.error := by
  obtain ⟨id?, rfl, henabled⟩ := h
  cases id? with
  | none =>
      show (s.exhaust choices).error = s.error
      rcases exhaust_cases s choices with ⟨names, -, hend⟩ | ⟨monitor, -, hend⟩ | hend <;>
        rw [hend] <;> rfl
  | some id =>
      rw [resolve_of_legal (any_of_enabledIn (henabled id rfl))]
      exact (dispatch_keeps s current id).1

/-- Under a random walk no call fails. -/
theorem error_after_of_walk (s : Scheduler (Walk γ)) (c : Call) :
    (s.after c).error = s.error := by
  have heffect := effect_after s c
  generalize s.after c = s' at heffect
  cases heffect with
  | notifies n => exact (sameVerdict_notify s n).error
  | keeps _ alike | stops _ alike | fails _ alike => exact alike.error
  | reports text => rfl
  | resolves t kind targetKind target =>
      have hlegal := (s.strategy.obliging (s.shown t ⟨kind, targetKind, target, none⟩)
        t.operation).1
      exact (error_resolve _ t.operation hlegal).trans (alike_asked s t _).error
  | flips t max fairness => rfl
  | rolls t max =>
      -- what has been rolled is in range, so that the check lets it pass
      have hrange : isInRange (s.strategy.roll max).1 max = true :=
        (s.strategy.ranged max).good_of_some
      have hcheck : checkRange max (Strategy.nextInteger s.strategy max).1 =
          .ok (some (s.strategy.roll max).1) := if_pos hrange
      rw [hcheck]
      rfl

theorem error_afterAll_of_walk {s : Scheduler (Walk γ)} (calls : List Call) :
    (s.afterAll calls).error = s.error := by
  induction calls generalizing s with
  | nil => rfl
  | cons c calls ih => exact ih.trans (error_after_of_walk s c)

/-- In a run of a random walk the walk has counted the decisions that are logged. -/
theorem steps_eq_size (i : Nat) (config : Configuration) {w : Walk γ}
    (hw : w.Opens config) (calls : List Call) :
    let s := (new i config w).afterAll calls
    s.strategy.steps = s.schedule.size ∧ s.strategy.maxSteps = config.maxFairSteps := by
  intro s
  let said := (new i config w).saidAll calls
  have hcounts : w.Counts said s.strategy :=
    Walk.counts_of_follows (follows_saidAll (new i config w) calls)
  have hpassage : (new i config w).Passage said s := Makes.passage ⟨calls, rfl, rfl⟩
  have hlogged := hpassage.logged (error_afterAll_of_walk calls)
  have hschedule : s.schedule = (new i config w).schedule.extend said :=
    schedule_extend_saidAll (new i config w) calls
  refine ⟨?_, hcounts.maxSteps.trans hw.maxSteps⟩
  calc s.strategy.steps = (verdicts said).length := by
        rw [hcounts.steps, hw.steps, Nat.zero_add]
    _ = (logged said).length := by rw [← hlogged, List.length_map]
    _ = s.schedule.size := by
        rw [hschedule]
        simp [Schedule.extend, new]

variable {i : Nat} {config : Configuration} {w : Walk γ}

theorem boundReached_of_walk (hw : w.Opens config) (calls : List Call) :
    let s := (new i config w).afterAll calls
    Strategy.boundReached s.strategy = true ↔
      0 < config.maxFairSteps ∧ config.maxFairSteps ≤ s.schedule.size := by
  intro s
  obtain ⟨hsteps, hmax⟩ := steps_eq_size i config hw calls
  show (0 < s.strategy.maxSteps && s.strategy.maxSteps ≤ s.strategy.steps) = true ↔ _
  rw [hsteps, hmax, Bool.and_eq_true, decide_eq_true_iff, decide_eq_true_iff]

/-- A walk logs no more decisions than its bound allows. -/
theorem size_schedule_le (hw : w.Opens config) (hbound : 0 < config.maxFairSteps)
    (calls : List Call) :
    ((new i config w).afterAll calls).schedule.size ≤ config.maxFairSteps := by
  induction calls using List.reverseRecOn with
  | nil => exact Nat.zero_le _
  | append_singleton calls c ih =>
      rw [afterAll_concat]
      rcases schedule_after_of_bound ((new i config w).afterAll calls) c with
        hsame | ⟨hshort, d, hpush⟩
      · rw [hsame]
        exact ih
      · -- one more decision is logged only below the bound
        have hbelow : ¬config.maxFairSteps ≤ ((new i config w).afterAll calls).schedule.size := by
          intro hle
          have hreached := (boundReached_of_walk (i := i) hw calls).mpr ⟨hbound, hle⟩
          rw [hshort] at hreached
          cases hreached
        rw [hpush, Array.size_push]
        exact Nat.lt_of_not_le hbelow

/-- A walk is at its bound when it is asked for one more decision behind it. -/
theorem atBound_iff_of_walk (hw : w.Opens config) (calls : List Call) (c : Call) :
    ((new i config w).afterAll calls).AtBound c ↔
      0 < config.maxFairSteps ∧
        ((new i config w).afterAll calls).AsksBehind config.maxFairSteps c := by
  constructor
  · rintro ⟨t, hc, hrun, hadmits, hreached⟩
    obtain ⟨hbound, hle⟩ := (boundReached_of_walk hw calls).mp hreached
    have hsize := Nat.le_antisymm (size_schedule_le hw hbound calls) hle
    exact ⟨hbound, t, hc, hrun, hadmits, hsize⟩
  · rintro ⟨hbound, t, hc, hrun, hadmits, hsize⟩
    exact ⟨t, hc, hrun, hadmits,
      (boundReached_of_walk hw calls).mpr ⟨hbound, Nat.le_of_eq hsize.symm⟩⟩

/-- In a run of a random walk that starts under its configuration, after any calls: the walk has
counted exactly the decisions that are logged. The run is marked as cut off if and only if there is
a bound and the operation in control has made one more request with as many decisions logged as the
bound allows; there are never more of them. Such a request logs nothing and ends the run, without
exploring it, and the run shows the bound as its bug if that counts as one, and no bug otherwise. -/
theorem step_bound_exact (i : Nat) (config : Configuration) (w : Walk γ)
    (hw : w.Opens config) (calls : List Call) :
    let bound := config.maxFairSteps
    let start := new i config w
    let s := start.afterAll calls
    s.outcome.steps = s.schedule.size ∧ (0 < bound → s.schedule.size ≤ bound) ∧
      (s.outcome.boundReached = true ↔ 0 < bound ∧ start.Meets (AsksBehind bound) calls) ∧
      ∀ c, 0 < bound → s.AsksBehind bound c →
        let s' := s.after c
        s'.schedule = s.schedule ∧ s'.running = false ∧ s'.outcome.boundReached = true ∧
          s'.outcome.error = none ∧ s'.outcome.fullyExplored = false ∧
          s'.outcome.bug =
            if config.boundIsBug then
              some ⟨.stepBound, "Scheduling steps bound of " ++ Text.showNat bound ++ " reached."⟩
            else none := by
  intro bound start s
  refine ⟨(steps_eq_size i config hw calls).1, fun hbound => size_schedule_le hw hbound calls,
    ?_, ?_⟩
  · -- the two places where a run is cut off are one under a walk
    have hmarked := boundReached_afterAll_iff start calls
    have hfresh : start.boundReached = false := rfl
    rw [hfresh, Bool.false_eq_true, false_or] at hmarked
    refine hmarked.trans ?_
    constructor
    · rintro ⟨before, c, rest, hcalls, hmet⟩
      obtain ⟨hbound, hasks⟩ := (atBound_iff_of_walk hw before c).mp hmet
      exact ⟨hbound, before, c, rest, hcalls, hasks⟩
    · rintro ⟨hbound, before, c, rest, hcalls, hasks⟩
      exact ⟨before, c, rest, hcalls, (atBound_iff_of_walk hw before c).mpr ⟨hbound, hasks⟩⟩
  · intro c hbound hasks s'
    have hmet : s.AtBound c := (atBound_iff_of_walk hw calls c).mpr ⟨hbound, hasks⟩
    obtain ⟨t, hc, hrun, hadmits, hreached⟩ := hmet
    have hrefused := refusal?_of_atBound hrun hadmits hreached
    have hs' : s' = s.cutOff := after_of_refused hc hrefused
    have hopen : s.Open := ((ruled_new i config w).afterAll calls).goesOn hrun
    have hconfig : s.config = config := config_afterAll start calls
    have hbug := bug_of_atBound hopen
    rw [hconfig] at hbug
    refine ⟨?_, ?_, ?_, ?_, ?_, ?_⟩
    · rw [hs', schedule_of_refused hrefused]
    · rw [hs']
      exact (stopped_cutOff s).running
    · show s'.boundReached = true
      rw [hs', boundReached_cutOff]
    · exact (error_after_of_walk s c).trans hopen.error
    · show s'.fullyExplored = false
      rw [hs', fullyExplored_cutOff, hopen.fullyExplored]
    · show s'.bug = _
      rw [hs']
      exact hbug

/-- The harness is registered, yields and tosses a coin. -/
def twoStepCalls : List Call :=
  [.create ⟨0⟩ "harness", .yield ⟨7, ⟨0⟩⟩ .yield .operation ⟨0⟩, .nextBoolean ⟨7, ⟨0⟩⟩ 2 none]

theorem step_bound_exact_of_twoSteps :
    let config : Configuration := { maxFairSteps := 2, boundIsBug := true }
    let walk := RandomWalk.ofConfiguration config
    let start := new 7 config walk
    let s := start.afterAll twoStepCalls
    let c := Call.yield ⟨7, ⟨0⟩⟩ .stop .operation ⟨0⟩
    walk.Opens config ∧ s.AsksBehind 2 c ∧ s.outcome.steps = s.schedule.size ∧
      start.Meets (AsksBehind 2) (twoStepCalls ++ [c]) ∧ (s.after c).schedule = s.schedule ∧
      (s.after c).outcome.bug = some ⟨.stepBound, "Scheduling steps bound of 2 reached."⟩ := by
  intro config walk start s c
  have hwalk : walk.Opens config := .fresh
  have hadmits : s.Admits ⟨7, ⟨0⟩⟩ := admits_iff.mpr (by decide +kernel)
  have hasks : s.AsksBehind 2 c :=
    ⟨⟨7, ⟨0⟩⟩, rfl, by decide +kernel, hadmits, by decide +kernel⟩
  obtain ⟨hsteps, -, -, hcut⟩ := step_bound_exact 7 config walk hwalk twoStepCalls
  obtain ⟨hschedule, -, -, -, -, hbug⟩ := hcut c (by decide) hasks
  refine ⟨hwalk, hasks, hsteps, meets_concat.mpr (Or.inr hasks), hschedule, ?_⟩
  rw [hbug]
  decide +kernel

end Scheduler

end Interleave
