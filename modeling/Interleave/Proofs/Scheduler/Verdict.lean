import Interleave.Proofs.Scheduler.AfterEnd
import Interleave.Proofs.Scheduler.Effects
import Interleave.Strategy.RandomWalk
import Interleave.Strategy.Replay

/-!
# The verdict of a run

A run ends with a bug, with an error of the strategy, because the strategy has no more choices, or
with none of these. What a call can do to that is one of a few things (`Scheduler.Rules`): while a
run goes on it has no verdict, and the call that ends it gives it one at most
(`Scheduler.Ruled.after`). Once the run is over only a failure that the call itself reports is still
recorded, and only if no bug was found before (`Scheduler.bug_after_of_over`). That makes a second
verdict of a run that the strategy has ended, and it is the only way to one
(`Scheduler.one_verdict_iff_no_late_report`).
-/

namespace Interleave

namespace Scheduler

variable {σ : Type}

/-- The run goes on, and it has no verdict yet. -/
structure Open (s : Scheduler σ) : Prop where
  running : s.running = true
  completed : s.completed = false
  bug : s.bug = none
  fullyExplored : s.fullyExplored = false
  error : s.error = none

/-- The strategy has ended the run: it has no more choices, or it has failed. -/
def EndedByStrategy (s : Scheduler σ) : Prop :=
  s.fullyExplored = true ∨ s.error ≠ none

/-- The run is open or completed, and the strategy has not ended it in two ways. -/
structure Ruled (s : Scheduler σ) : Prop where
  goesOn : s.running = true → s.Open
  completed : s.running = false → s.completed = true
  apart : s.fullyExplored = true → s.error = none

/-- The failure that a call reports by itself, whether or not the run goes on: an assertion that has
failed, or the start of an operation that is not registered here. -/
def reported? (s : Scheduler σ) : Call → Option Bug
  | .failAssertion text | .reportAssertion text => some ⟨.assertion, text⟩
  | .start t =>
    if (s.slot? t.operation).isSome ∧ t.scheduler = s.id then none
    else some ⟨.uncontrolledSynchronization, (Misuse.startedUnregistered t.operation).message⟩
  | _ => none

/-- Nothing that belongs to the verdict has changed, nor has the configuration, by which it is
given. -/
structure SameVerdict (s s' : Scheduler σ) : Prop where
  config : s'.config = s.config
  running : s'.running = s.running
  completed : s'.completed = s.completed
  bug : s'.bug = s.bug
  fullyExplored : s'.fullyExplored = s.fullyExplored
  error : s'.error = s.error

/-- What a call other than the report of an assertion can do to the verdict. -/
inductive Rules (s : Scheduler σ) : Scheduler σ → Prop
  /-- The verdict stays as it is. -/
  | keeps {s' : Scheduler σ} (same : s.SameVerdict s') : Rules s s'
  /-- The run ends without a verdict. -/
  | stops {s₁ : Scheduler σ} (same : s.SameVerdict s₁) : Rules s s₁.stop
  /-- The run ends with a bug. -/
  | fails {s₁ : Scheduler σ} (same : s.SameVerdict s₁) (kind : BugKind) (message : String) :
      Rules s (s₁.fail kind message)
  /-- The run ends because the strategy has failed. -/
  | aborts {s₁ : Scheduler σ} (same : s.SameVerdict s₁) (error : StrategyError) :
      Rules s (s₁.abort error)
  /-- The run ends because the strategy has no more choices. -/
  | explores {s₁ : Scheduler σ} (same : s.SameVerdict s₁) : Rules s s₁.explored

theorem SameVerdict.refl (s : Scheduler σ) : s.SameVerdict s :=
  ⟨rfl, rfl, rfl, rfl, rfl, rfl⟩

theorem SameVerdict.trans {s s' s'' : Scheduler σ} (h : s.SameVerdict s')
    (h' : s'.SameVerdict s'') : s.SameVerdict s'' :=
  ⟨h'.config.trans h.config, h'.running.trans h.running, h'.completed.trans h.completed,
    h'.bug.trans h.bug, h'.fullyExplored.trans h.fullyExplored, h'.error.trans h.error⟩

theorem Rules.of_same {s s₁ s' : Scheduler σ} (h : s.SameVerdict s₁) (hrules : s₁.Rules s') :
    s.Rules s' := by
  cases hrules with
  | keeps same => exact .keeps (h.trans same)
  | stops same => exact .stops (h.trans same)
  | fails same kind message => exact .fails (h.trans same) kind message
  | aborts same error => exact .aborts (h.trans same) error
  | explores same => exact .explores (h.trans same)

theorem Open.same {s s' : Scheduler σ} (h : s.Open) (hsame : s.SameVerdict s') : s'.Open :=
  ⟨hsame.running.trans h.running, hsame.completed.trans h.completed, hsame.bug.trans h.bug,
    hsame.fullyExplored.trans h.fullyExplored, hsame.error.trans h.error⟩

theorem Open.not_endedByStrategy {s : Scheduler σ} (h : s.Open) : ¬s.EndedByStrategy := by
  rintro (hexplored | herror)
  · rw [h.fullyExplored] at hexplored
    cases hexplored
  · exact herror h.error

theorem ruled_new (i : Nat) (config : Configuration) (q : σ) : (new i config q).Ruled :=
  ⟨fun _ => ⟨rfl, rfl, rfl, rfl, rfl⟩, nofun, nofun⟩

theorem Rules.completed {s s' : Scheduler σ} (h : s.Rules s') (hs : s.completed = true) :
    s'.completed = true := by
  cases h with
  | keeps same => exact same.completed.trans hs
  | stops | fails | aborts | explores => rfl

theorem Rules.config {s s' : Scheduler σ} (h : s.Rules s') : s'.config = s.config := by
  cases h with
  | keeps same | stops same | fails same | aborts same | explores same => exact same.config

/-- A call of a run that goes on leaves it open or ends it with one verdict at most. -/
theorem Open.ruled {s s' : Scheduler σ} (h : s.Open) (hrules : s.Rules s') :
    s'.Ruled ∧ (s'.EndedByStrategy → s'.bug = none) := by
  -- what has been left open before the end has no verdict of its own
  cases hrules with
  | keeps same =>
      have hopen := h.same same
      exact ⟨⟨fun _ => hopen, fun hover => by simp [hopen.running] at hover,
        fun _ => hopen.error⟩, fun _ => hopen.bug⟩
  | stops same =>
      have hopen := h.same same
      exact ⟨⟨nofun, fun _ => rfl, fun _ => hopen.error⟩, fun _ => hopen.bug⟩
  | @fails s₁ same kind message =>
      have hopen := h.same same
      exact ⟨⟨nofun, fun _ => rfl, fun _ => hopen.error⟩,
        fun hended => absurd hended hopen.not_endedByStrategy⟩
  | @aborts s₁ same error =>
      have hopen := h.same same
      refine ⟨⟨nofun, fun _ => rfl, fun hexplored => ?_⟩, fun _ => hopen.bug⟩
      have hexplored : s₁.fullyExplored = true := hexplored
      rw [hopen.fullyExplored] at hexplored
      cases hexplored
  | explores same =>
      have hopen := h.same same
      exact ⟨⟨nofun, fun _ => rfl, fun _ => hopen.error⟩, fun _ => hopen.bug⟩

/-- The report of an assertion ends a run that goes on with a bug. -/
theorem Open.ruled_reportAssertion {s : Scheduler σ} (h : s.Open) (text : String) :
    (s.reportAssertion text).Ruled ∧
      ((s.reportAssertion text).EndedByStrategy → (s.reportAssertion text).bug = none) :=
  ⟨⟨nofun, fun _ => rfl, fun _ => h.error⟩, fun hended => absurd hended h.not_endedByStrategy⟩

/-! ## What the calls do to the verdict -/

theorem Alike.sameVerdict {s s' : Scheduler σ} (h : s.Alike s') : s.SameVerdict s' :=
  ⟨h.config, h.running, h.completed, h.bug, h.fullyExplored, h.error⟩

variable [Strategy σ]

theorem sameVerdict_heat (s : Scheduler σ) : s.SameVerdict s.heat := by
  rcases heat_cases s with hheat | hheat
  · rw [hheat]
    exact .refl s
  · rw [hheat]
    exact ⟨rfl, rfl, rfl, rfl, rfl, rfl⟩

theorem sameVerdict_notify (s : Scheduler σ) (n : Notice) : s.SameVerdict (s.notify n) := by
  cases hrun : s.running with
  | true =>
      rw [notify_of_running hrun]
      exact ⟨rfl, rfl, rfl, rfl, rfl, rfl⟩
  | false =>
      rw [notify_of_over hrun]
      exact .refl s

theorem rules_exhaust (s : Scheduler σ) (choices : List Snapshot) :
    s.Rules (s.exhaust choices) := by
  rcases exhaust_cases s choices with ⟨names, -, hend⟩ | ⟨monitor, -, hend⟩ | hend
  · rw [hend]
    exact .fails (.refl s) _ _
  · rw [hend]
    exact .fails (.refl s) _ _
  · rw [hend]
    exact .explores (.refl s)

theorem rules_dispatch (s : Scheduler σ) (current next : OperationId) :
    s.Rules (s.dispatch current next).2 := by
  let s₁ := { s with schedule := s.schedule.push (.schedule next) }
  have hlogged : s.SameVerdict s₁ := ⟨rfl, rfl, rfl, rfl, rfl, rfl⟩
  have hheated := hlogged.trans (sameVerdict_heat s₁)
  rcases dispatch_cases s current next with ⟨monitor, -, hend⟩ | hpass
  · rw [hend]
    exact .fails hheated _ _
  · rw [hpass]
    exact .keeps (hheated.trans (alike_handOver _ _ _).sameVerdict)

theorem rules_resolve (s : Scheduler σ) (current : OperationId) (choices : List Snapshot)
    (answer : Answer OperationId) : s.Rules (s.resolve current choices answer).2 := by
  rcases resolve_cases s current choices answer with ⟨e, hend⟩ | ⟨-, hend⟩ | ⟨d, -, hdispatch⟩
  · rw [hend]
    exact .aborts (.refl s) e
  · rw [hend]
    exact rules_exhaust s choices
  · rw [hdispatch]
    exact rules_dispatch s current d

theorem rules_settle {α : Type} (s : Scheduler σ) (q : σ) (t : Token) (toChoice : α → Choice)
    (toDecision : α → Decision) (answer : Answer α) :
    s.Rules ({ s with strategy := q }.settle t toChoice toDecision answer).2 := by
  have hasked : s.SameVerdict { s with strategy := q } := ⟨rfl, rfl, rfl, rfl, rfl, rfl⟩
  rcases answer with e | _ | value
  · exact .aborts hasked e
  · exact .explores hasked
  · exact .keeps ⟨rfl, rfl, rfl, rfl, rfl, rfl⟩

theorem rules_after (s : Scheduler σ) {c : Call} (hc : ¬∃ text, c = .reportAssertion text) :
    s.Rules (s.after c) := by
  have heffect := effect_after s c
  generalize s.after c = s' at heffect
  cases heffect with
  | notifies n => exact .keeps (sameVerdict_notify s n)
  | keeps _ alike => exact .keeps alike.sameVerdict
  | stops _ alike => exact .stops alike.sameVerdict
  | fails _ alike kind message => exact .fails alike.sameVerdict kind message
  | reports text => exact absurd ⟨text, rfl⟩ hc
  | resolves t kind targetKind target =>
      exact .of_same (alike_asked s t _).sameVerdict (rules_resolve _ _ _ _)
  | flips t max fairness => exact rules_settle s _ t _ _ _
  | rolls t max => exact rules_settle s _ t _ _ _

theorem Open.ruled_after {s : Scheduler σ} (h : s.Open) (c : Call) :
    (s.after c).Ruled ∧ ((s.after c).EndedByStrategy → (s.after c).bug = none) := by
  by_cases hc : ∃ text, c = .reportAssertion text
  · obtain ⟨text, rfl⟩ := hc
    exact h.ruled_reportAssertion text
  · exact h.ruled (rules_after s hc)

theorem completed_after {s : Scheduler σ} (h : s.completed = true) (c : Call) :
    (s.after c).completed = true := by
  by_cases hc : ∃ text, c = .reportAssertion text
  · obtain ⟨text, rfl⟩ := hc
    rfl
  · exact (rules_after s hc).completed h

/-- No call changes the configuration. -/
theorem config_after (s : Scheduler σ) (c : Call) : (s.after c).config = s.config := by
  by_cases hc : ∃ text, c = .reportAssertion text
  · obtain ⟨text, rfl⟩ := hc
    rfl
  · exact (rules_after s hc).config

theorem config_afterAll (s : Scheduler σ) (calls : List Call) :
    (s.afterAll calls).config = s.config := by
  induction calls generalizing s with
  | nil => rfl
  | cons c calls ih => exact (ih (s.after c)).trans (config_after s c)

/-! ## Late reports -/

/-- Once the run is over the first bug that is reported is recorded, and nothing else. -/
theorem bug_after_of_over {s : Scheduler σ} (hover : s.running = false) (c : Call) :
    (s.after c).bug = s.bug.or (s.reported? c) := by
  cases c with
  | yield _ _ _ _ | nextBoolean _ _ _ | nextInteger _ _ =>
      rw [after_of_over hover rfl]
      exact (Option.or_none).symm
  | create id name =>
      simp only [after, reported?, Option.or_none]
      exact (alike_create s id name).bug
  | start t =>
      rw [after]
      rcases start_cases s t with ⟨slot, hslot, hown, hstart⟩ | ⟨hunknown, hfail⟩
      · rw [hstart]
        simp [reported?, hslot, hown, updateSlot]
      · rw [hfail, reported?, if_neg hunknown]
        rfl
  | notify n =>
      simp [after, notify_of_over hover, reported?]
  | send sender target event =>
      simp [after, send_of_over hover, reported?]
  | blockOnReceive _ | unblock _ | complete _ | stop => exact (Option.or_none).symm
  | failAssertion _ | reportAssertion _ => rfl

theorem Ruled.after {s : Scheduler σ} (h : s.Ruled) (c : Call) : (s.after c).Ruled := by
  cases hrun : s.running with
  | true => exact ((h.goesOn hrun).ruled_after c).1
  | false =>
      have hrests := rests_after hrun c
      have hover := ((passage_after s c).silent hrun).2
      refine ⟨fun hgoes => ?_, fun _ => ?_, fun hexplored => ?_⟩
      · rw [hover] at hgoes
        cases hgoes
      · exact completed_after (h.completed hrun) c
      · rw [hrests.error]
        exact h.apart (hrests.fullyExplored ▸ hexplored)

theorem Ruled.afterAll {s : Scheduler σ} (h : s.Ruled) (calls : List Call) :
    (s.afterAll calls).Ruled := by
  induction calls generalizing s with
  | nil => exact h
  | cons c calls ih => exact ih (h.after c)

theorem running_afterAll_of_over {s : Scheduler σ} (hover : s.running = false)
    (calls : List Call) : (s.afterAll calls).running = false := by
  induction calls generalizing s with
  | nil => exact hover
  | cons c calls ih => exact ih ((passage_after s c).silent hover).2

theorem endedByStrategy_after_of_over {s : Scheduler σ} (hover : s.running = false) (c : Call) :
    (s.after c).EndedByStrategy ↔ s.EndedByStrategy := by
  have hrests := rests_after hover c
  unfold EndedByStrategy
  rw [hrests.fullyExplored, hrests.error]

/-- A run with one verdict at most has a second one later if and only if a failure is reported once
the strategy has ended the run. -/
theorem Ruled.two_verdicts_iff {s : Scheduler σ} (h : s.Ruled)
    (hone : s.EndedByStrategy → s.bug = none) (calls : List Call) :
    (s.afterAll calls).EndedByStrategy ∧ (s.afterAll calls).bug ≠ none ↔
      s.Meets (fun s c => s.EndedByStrategy ∧ s.reported? c ≠ none) calls := by
  induction calls using List.reverseRecOn with
  | nil => simpa using hone
  | append_singleton calls c ih =>
      rw [afterAll_concat, meets_concat, ← ih]
      have hruled := h.afterAll calls
      generalize s.afterAll calls = s' at hruled
      cases hrun : s'.running with
      | true =>
          -- the call ends the run at most, and nothing has ended it before
          have hopen := hruled.goesOn hrun
          have hnot := hopen.not_endedByStrategy
          have hlast := (hopen.ruled_after c).2
          constructor
          · rintro ⟨hended, hbug⟩
            exact absurd (hlast hended) hbug
          · rintro (⟨hended, -⟩ | ⟨hended, -⟩)
            · exact absurd hended hnot
            · exact absurd hended hnot
      | false =>
          rw [endedByStrategy_after_of_over hrun, bug_after_of_over hrun, Ne, Option.or_eq_none_iff,
            not_and_or, ← and_or_left]

/-- Once a run is over it has a bug later if it has one now, or if a failure is reported. -/
theorem bug_afterAll_ne_none_iff {s : Scheduler σ} (hover : s.running = false)
    (calls : List Call) : (s.afterAll calls).bug ≠ none ↔
      s.bug ≠ none ∨ s.Meets (fun s c => s.reported? c ≠ none) calls := by
  induction calls using List.reverseRecOn with
  | nil => simp
  | append_singleton calls c ih =>
      rw [afterAll_concat, meets_concat, ← or_assoc, ← ih,
        bug_after_of_over (running_afterAll_of_over hover calls), Ne, Option.or_eq_none_iff,
        not_and_or]

/-- Once a run is over its bug changes if and only if it has none and a failure is reported. -/
theorem bug_afterAll_ne_iff {s : Scheduler σ} (hover : s.running = false) (calls : List Call) :
    (s.afterAll calls).bug ≠ s.bug ↔
      s.bug = none ∧ s.Meets (fun s c => s.reported? c ≠ none) calls := by
  have hlater := bug_afterAll_ne_none_iff hover calls
  cases hbug : s.bug with
  | none => simpa [hbug] using hlater
  | some bug =>
      have hpassage : s.Passage (s.saidAll calls) (s.afterAll calls) :=
        Makes.passage ⟨calls, rfl, rfl⟩
      simp [hpassage.bug bug hbug]

/-- Under any strategy and after any calls, a run that the strategy has ended, because it has no
more choices or has failed, has also a bug if and only if a failure was reported after that end: an
assertion that failed late, or a late start of an operation that is not registered. And the bug of a
completed run changes later if and only if it has none and a failure is reported then. A strategy
never ends a run in two ways. -/
theorem one_verdict_iff_no_late_report (i : Nat) (config : Configuration) (q : σ)
    (calls : List Call) :
    let start := new i config q
    let s := start.afterAll calls
    (s.fullyExplored = true → s.error = none) ∧
    (((s.fullyExplored = true ∨ s.error ≠ none) ∧ s.bug ≠ none) ↔
      start.Meets (fun s c => s.EndedByStrategy ∧ s.reported? c ≠ none) calls) ∧
    (s.completed = true → ∀ more, (s.afterAll more).bug ≠ s.bug ↔
      s.bug = none ∧ s.Meets (fun s c => s.reported? c ≠ none) more) := by
  intro start s
  have hstart : start.Ruled := ruled_new i config q
  have hs : s.Ruled := hstart.afterAll calls
  refine ⟨hs.apart, hstart.two_verdicts_iff (fun _ => rfl) calls, fun hcompleted more => ?_⟩
  refine bug_afterAll_ne_iff ?_ more
  cases hrun : s.running with
  | false => rfl
  | true =>
      rw [(hs.goesOn hrun).completed] at hcompleted
      cases hcompleted

/-- A random walk has ended a run, as has a replay whose schedule is too short, and then an
assertion fails. The completed runs had no bug before and have one now, although they are said to be
explored or have an error. -/
theorem two_verdicts_of_lateAssertion :
    let t : Token := ⟨7, ⟨0⟩⟩
    let explored := (new 7 {} (RandomWalk.ofSeed 0 0)).afterAll
      [.create ⟨0⟩ "harness", .complete t, .yield t .stop .operation ⟨0⟩]
    let aborted := (new 7 {} (Replay.ofSchedule #[] false none : Replay RandomWalk)).afterAll
      [.create ⟨0⟩ "harness", .yield t .yield .operation ⟨0⟩]
    let late : Call := .failAssertion "late"
    (explored.completed = true ∧ explored.bug = none ∧ (explored.after late).fullyExplored = true ∧
      (explored.after late).bug = some ⟨.assertion, "late"⟩) ∧
    (aborted.completed = true ∧ aborted.bug = none ∧
      (aborted.after late).error = some (.exhausted 0) ∧
      (aborted.after late).bug = some ⟨.assertion, "late"⟩) := by
  decide +kernel

end Scheduler

end Interleave
