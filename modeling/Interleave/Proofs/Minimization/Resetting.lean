import Interleave.Proofs.Minimization.WithheldSends

/-!
# Resetting an iteration

A session is planned anew when it is reset. What it is asked and told within an iteration changes
nothing that the plan is made from (`Session.SameIteration`): the search of the editor stays where
it is, and a replay is touched only if it is the one that the plan sets up. So a session without a
suffix is reset to the very state in which the iteration started (`Session.reset_undoes_iteration`).
-/

namespace Interleave

/-! ## Inputs within a run -/

/-- What a strategy is asked or told within a run. -/
inductive Input where
  | operation (choices : List Snapshot) (current : OperationId)
  | boolean (max : UInt32)
  | integer (max : UInt32)
  | forceOperation (id : OperationId) (choices : List Snapshot) (current : OperationId)
  | forceBoolean (max : UInt32) (b : Bool)
  | forceInteger (max n : UInt32)
  | notice (n : Notice)
  | send (sender target : OperationId) (event : Event)

/-- What a strategy says to it. -/
inductive Response where
  | operation (answer : Answer OperationId)
  | boolean (answer : Answer Bool)
  | integer (answer : Answer UInt32)
  | forced (result : Except StrategyError Unit)
  | heard
  | delivery (delivery : Delivery)

section Respond

variable {σ : Type} [Strategy σ]

/-- The response to an input, and the state after it. -/
def Input.put (s : σ) : Input → Response × σ
  | .operation choices current =>
    let (answer, s) := Strategy.nextOperation s choices current
    (.operation answer, s)
  | .boolean max =>
    let (answer, s) := Strategy.nextBoolean s max
    (.boolean answer, s)
  | .integer max =>
    let (answer, s) := Strategy.nextInteger s max
    (.integer answer, s)
  | .forceOperation id choices current =>
    let (result, s) := Strategy.forceOperation s id choices current
    (.forced result, s)
  | .forceBoolean max b =>
    let (result, s) := Strategy.forceBoolean s max b
    (.forced result, s)
  | .forceInteger max n =>
    let (result, s) := Strategy.forceInteger s max n
    (.forced result, s)
  | .notice n => (.heard, Strategy.observe s n)
  | .send sender target event =>
    let (delivery, s) := Strategy.onSend s sender target event
    (.delivery delivery, s)

/-- The responses to inputs in a row, and the state after them. -/
def respond (s : σ) : List Input → List Response × σ
  | [] => ([], s)
  | input :: inputs =>
    let (response, s) := input.put s
    let (responses, s) := respond s inputs
    (response :: responses, s)

/-- Whatever every input keeps is kept by inputs in a row. -/
theorem respond_induction {P : σ → Prop} (step : ∀ s (input : Input), P s → P (input.put s).2)
    {s : σ} (h : P s) (inputs : List Input) : P (respond s inputs).2 := by
  induction inputs generalizing s with
  | nil => exact h
  | cons input inputs ih => exact ih (step s input h)

end Respond

namespace Minimization

theorem Editor.SameSearch.symm {e e' : Editor} (h : e.SameSearch e') : e'.SameSearch e := by
  obtain ⟨cursor, seen, rfl⟩ := h
  exact ⟨e.cursor, e.droppableSeen, rfl⟩

theorem Editor.SameSearch.beginRun {e e' : Editor} (h : e.SameSearch e') :
    e'.beginRun = e.beginRun := by
  obtain ⟨cursor, seen, rfl⟩ := h
  rfl

namespace Session

variable {τ : Type}

/-- Nothing of the run has happened yet: there is no recording and no step, the guide stands behind
its root with nothing deleted, no droppable send has been seen, and an input schedule is replayed
from its first decision. -/
structure Fresh (s : Session τ) : Prop where
  recorder : s.recorder = .empty
  steps : s.steps = 0
  droppableSeen : s.editor.droppableSeen = 0
  cursor : s.editor.cursor = if s.editor.phase.isGuided then
    s.editor.best.map (Cursor.start · s.editor.phase.cutoff) else none
  replayed : ∀ schedule, s.editor.phase = .scheduleReplay → s.schedule = some schedule →
    s.mode = .replay ∧ s.replay = some (.ofSchedule schedule false none)
  guided : s.editor.phase.isGuided = true → s.mode = .guided
  free : ¬s.Replays → s.editor.phase.isGuided = false → s.mode = .free

/-- As far as it matters to the plan of a run, one session can become the other one within an
iteration without a suffix: it has the same search and the same input, and no replay but that of the
input schedule has been touched. -/
structure SameIteration (s s' : Session τ) : Prop where
  search : s.editor.SameSearch s'.editor
  schedule : s'.schedule = s.schedule
  header : s'.header = s.header
  originalLength : s'.originalLength = s.originalLength
  maxSteps : s'.maxSteps = s.maxSteps
  suffix : s'.suffix = s.suffix
  mode : s'.mode = .replay → s.Replays
  replay : ¬s.Replays → s'.replay = s.replay

/-! ## Planning -/

theorem exists_schedule {s : Session τ} (h : s.Replays) : ∃ schedule, s.schedule = some schedule :=
  Option.isSome_iff_exists.mp h.2

theorem fresh_plan (s : Session τ) : s.plan.Fresh := by
  have hplanned := s.planned_plan
  obtain ⟨hrecorder, hsteps, -⟩ := s.plan_facts
  have hphase : s.plan.editor.phase = s.editor.phase := s.sameSearch_plan.phase
  refine ⟨hrecorder, hsteps, hplanned.droppableSeen, ?_, fun schedule hreplay hschedule => ?_,
    hplanned.mode, fun hnot hguided => ?_⟩
  · rw [← hplanned.editor]
    rfl
  · have hold : s.schedule = some schedule := s.schedule_plan.symm.trans hschedule
    rw [plan_of_replays ⟨hphase ▸ hreplay, hold ▸ rfl⟩ hold]
    exact ⟨rfl, rfl⟩
  · by_cases hreplays : s.Replays
    · obtain ⟨schedule, hschedule⟩ := exists_schedule hreplays
      refine absurd ⟨hphase.trans hreplays.1, ?_⟩ hnot
      rw [plan_of_replays hreplays hschedule]
      exact hreplays.2
    · rw [hphase] at hguided
      rw [plan_of_not_replays hreplays, hguided]
      rfl

/-- A session that has just been planned can still become what it was planned to become. -/
theorem sameIteration_plan (s : Session τ) : s.SameIteration s.plan := by
  by_cases hreplays : s.Replays
  · obtain ⟨schedule, hschedule⟩ := exists_schedule hreplays
    rw [plan_of_replays hreplays hschedule]
    exact ⟨⟨_, _, rfl⟩, rfl, rfl, rfl, rfl, rfl, fun _ => hreplays,
      fun hnot => absurd hreplays hnot⟩
  · rw [plan_of_not_replays hreplays]
    refine ⟨⟨_, _, rfl⟩, rfl, rfl, rfl, rfl, rfl, fun hmode => ?_, fun _ => rfl⟩
    have hmode : (if s.editor.phase.isGuided then Mode.guided else .free) = .replay := hmode
    split at hmode <;> cases hmode

/-- The plan does not depend on what happens within an iteration. -/
theorem SameIteration.plan {s s' : Session τ} (h : s.SameIteration s') : s'.plan = s.plan := by
  have hphase := h.search.phase
  have hbegin := h.search.beginRun
  by_cases hreplays : s.Replays
  · obtain ⟨schedule, hschedule⟩ := exists_schedule hreplays
    have hreplays' : s'.Replays := ⟨hphase.trans hreplays.1, h.schedule ▸ hreplays.2⟩
    rw [plan_of_replays hreplays hschedule,
      plan_of_replays hreplays' (h.schedule.trans hschedule), hbegin, h.schedule,
      h.suffix, h.header, h.originalLength, h.maxSteps]
  · have hreplays' : ¬s'.Replays := by
      rintro ⟨hreplay, hsome⟩
      exact hreplays ⟨hphase.symm.trans hreplay, h.schedule ▸ hsome⟩
    rw [plan_of_not_replays hreplays, plan_of_not_replays hreplays', hbegin, hphase, h.schedule,
      h.replay hreplays, h.suffix, h.header, h.originalLength, h.maxSteps]

/-! ## Inputs -/

section Inputs

variable {s s' : Session τ} (h : s.SameIteration s')

include h

theorem SameIteration.countStep : s.SameIteration s'.countStep :=
  ⟨h.search, h.schedule, h.header, h.originalLength, h.maxSteps, h.suffix, h.mode,
    h.replay⟩

theorem SameIteration.withEditor {editor : Editor} (hsame : s'.editor.SameSearch editor) :
    s.SameIteration { s' with editor } :=
  ⟨h.search.trans hsame, h.schedule, h.header, h.originalLength, h.maxSteps, h.suffix,
    h.mode, h.replay⟩

theorem SameIteration.withRecorder (recorder : Recorder) :
    s.SameIteration { s' with recorder } :=
  ⟨h.search, h.schedule, h.header, h.originalLength, h.maxSteps, h.suffix, h.mode,
    h.replay⟩

variable {α : Type} (hsuffix : s.suffix = none) (fromSuffix : τ → Answer α × τ)
  (otherwise : Option α)

include hsuffix

/-- Without a suffix nothing is asked of it. -/
theorem SameIteration.askSuffix : s.SameIteration (s'.askSuffix fromSuffix otherwise).2 := by
  unfold Session.askSuffix
  rw [h.suffix, hsuffix]
  exact h

theorem SameIteration.goFree : s.SameIteration (s'.goFree fromSuffix otherwise).2 := by
  have hfree : s.SameIteration { s' with mode := .free } :=
    ⟨h.search, h.schedule, h.header, h.originalLength, h.maxSteps, h.suffix, nofun,
      h.replay⟩
  exact hfree.askSuffix hsuffix fromSuffix otherwise

/-- A replay that is asked is the one that the plan has set up. -/
theorem SameIteration.askReplay (hmode : s'.mode = .replay)
    (fromReplay : Replay τ → Answer α × Replay τ) :
    s.SameIteration (s'.askReplay fromReplay fromSuffix otherwise).2 := by
  unfold Session.askReplay
  split
  · exact h
  · rename_i replay _
    have hasked : s.SameIteration { s' with replay := some (fromReplay replay).2 } :=
      ⟨h.search, h.schedule, h.header, h.originalLength, h.maxSteps, h.suffix, h.mode,
        fun hnot => absurd (h.mode hmode) hnot⟩
    dsimp only
    split
    · exact hasked.goFree hsuffix fromSuffix otherwise
    · exact hasked

end Inputs

section Requests

variable [Strategy τ] {s s' : Session τ} (hsuffix : s.suffix = none)

include hsuffix

theorem SameIteration.nextOperation (h : s.SameIteration s') (choices : List Snapshot)
    (current : OperationId) : s.SameIteration (s'.nextOperation choices current).2 := by
  have hcount := h.countStep
  have hsame := s'.countStep.editor.sameSearch_nextOperation choices
  unfold Session.nextOperation
  dsimp only
  split
  · rename_i hmode
    exact hcount.askReplay hsuffix _ _ hmode _
  · split <;> rename_i heditor <;> rw [heditor] at hsame
    · exact hcount.withEditor hsame
    · exact (hcount.withEditor hsame).goFree hsuffix _ _
  · exact hcount.goFree hsuffix _ _

theorem SameIteration.nextBoolean (h : s.SameIteration s') (max : UInt32) :
    s.SameIteration (s'.nextBoolean max).2 := by
  have hcount := h.countStep
  have hsame := s'.countStep.editor.asked_nextBoolean.sameSearch
  unfold Session.nextBoolean
  dsimp only
  split
  · rename_i hmode
    exact hcount.askReplay hsuffix _ _ hmode _
  · split <;> rename_i heditor <;> rw [heditor] at hsame
    · exact hcount.withEditor hsame
    · exact (hcount.withEditor hsame).askSuffix hsuffix _ _
  · exact hcount.goFree hsuffix _ _

theorem SameIteration.nextInteger (h : s.SameIteration s') (max : UInt32) :
    s.SameIteration (s'.nextInteger max).2 := by
  have hcount := h.countStep
  have hsame := (s'.countStep.editor.asked_nextInteger max).sameSearch
  unfold Session.nextInteger
  dsimp only
  split
  · rename_i hmode
    exact hcount.askReplay hsuffix _ _ hmode _
  · split <;> rename_i heditor <;> rw [heditor] at hsame
    · exact hcount.withEditor hsame
    · exact hcount.withEditor hsame
    · exact (hcount.withEditor hsame).askSuffix hsuffix _ _
  · exact hcount.goFree hsuffix _ _

/-- Whatever a session is asked or told, it stays within the iteration. -/
theorem SameIteration.put (h : s.SameIteration s') (input : Input) :
    s.SameIteration (input.put s').2 := by
  cases input with
  | operation choices current => exact h.nextOperation hsuffix choices current
  | boolean max => exact h.nextBoolean hsuffix max
  | integer max => exact h.nextInteger hsuffix max
  | forceOperation | forceBoolean | forceInteger => exact h
  | notice n => exact h.withRecorder _
  | send sender target event =>
      exact (h.withEditor (s'.editor.sameSearch_onSend event)).withRecorder _

end Requests

/-! ## Resetting -/

variable [Strategy τ]

/-- The states of sessions without a suffix in which an iteration starts: a new session, one that
has prepared another run, and one that has been reset. -/
inductive Starts : Session τ → Prop
  | schedule (schedule : Schedule) (header : Header) (c : Configuration) (settings : Settings)
      (policy : MatchPolicy) : Starts (ofSchedule schedule header c settings policy none)
  | tree (tree : EventTree) (header : Header) (c : Configuration) (settings : Settings)
      (policy : MatchPolicy) : Starts (ofTree tree header c settings policy none)
  | prepared {s s' : Session τ} (suffix : s.suffix = none)
      (prepared : Strategy.prepare s = (.ok true, s')) : Starts s'
  | reset {s : Session τ} (suffix : s.suffix = none) : Starts (Strategy.reset s)

theorem reset_of_suffix {s : Session τ} (h : s.suffix = none) : Strategy.reset s = s.plan := by
  obtain ⟨editor, schedule, replay, suffix, mode, recorder, header, length, maxSteps, steps⟩ := s
  obtain rfl : suffix = none := h
  rfl

theorem Starts.exists_plan {s : Session τ} (h : s.Starts) :
    ∃ x : Session τ, x.suffix = none ∧ s = x.plan := by
  cases h with
  | schedule =>
      rw [ofSchedule, ofEditor]
      exact ⟨_, rfl, rfl⟩
  | tree =>
      rw [ofTree, ofEditor]
      exact ⟨_, rfl, rfl⟩
  | @prepared x _ suffix prepared =>
      cases Prepared.of_prepare prepared with
      | unsuffixed => exact ⟨x, suffix, rfl⟩
      | suffixed _ hsome => cases suffix.symm.trans hsome
  | @reset x suffix => exact ⟨x, suffix, reset_of_suffix suffix⟩

/-- A reset undoes the iteration. In whatever state an iteration starts without a suffix, nothing of
it has happened. Whatever the session is asked and told within the iteration, the search of its
editor stays as it is, a reset leads back to the state in which the iteration started and leaves the
search alone, and from there all later inputs get the responses of a fresh iteration. -/
theorem reset_undoes_iteration {s₀ : Session τ} (h : s₀.Starts) (history later : List Input) :
    let s := (respond s₀ history).2
    s₀.Fresh ∧ s₀.editor.SameSearch s.editor ∧ Strategy.reset s = s₀ ∧
      s.editor.SameSearch (Strategy.reset s).editor ∧
      respond (Strategy.reset s) later = respond s₀ later := by
  intro s
  obtain ⟨x, hsuffix, rfl⟩ := h.exists_plan
  have hsame : x.SameIteration s :=
    respond_induction (fun _ input hs => hs.put hsuffix input) x.sameIteration_plan history
  -- a reset plans again, and the plan is that of the start
  have hreset : Strategy.reset s = x.plan :=
    (reset_of_suffix (hsame.suffix.trans hsuffix)).trans hsame.plan
  have hsearch : x.plan.editor.SameSearch s.editor := x.sameSearch_plan.symm.trans hsame.search
  rw [hreset]
  exact ⟨x.fresh_plan, hsearch, rfl, hsearch.symm, rfl⟩

/-- A send that may be withheld has been made in the replay of a tree without sends. -/
def tickSession : Session RandomWalk :=
  (respond (ofTree .root {} {} { droppable := ["Tick"] } .always none)
    [.send .harness .harness { name := "Tick" }]).2

/-- The next run makes a choice and the send, which is withheld; a reset leads back to its start. -/
theorem reset_undoes_iteration_of_tick :
    let outcome : Outcome :=
      { (Scheduler.new 0 {} tickSession).outcome with bug := some ⟨.assertion, "late"⟩ }
    let s₀ := (Strategy.prepare (Strategy.onEnd tickSession outcome).2).2
    let history : List Input := [.boolean 2, .notice (.chosen .harness (.boolean false)),
      .send .harness .harness { name := "Tick" }]
    let s := (respond s₀ history).2
    s₀.Starts ∧ s₀.editor.phase = .edit ⟨1, 1⟩ ∧ s.steps = 1 ∧ s.editor.droppableSeen = 1 ∧
      s.recorder.tree.withheld = [2] ∧ s₀.Fresh ∧ Strategy.reset s = s₀ ∧
      respond (Strategy.reset s) history = respond s₀ history := by
  intro outcome s₀ history s
  have hstarts : s₀.Starts := by
    refine .prepared (s := (Strategy.onEnd tickSession outcome).2) rfl (Prod.ext ?_ rfl)
    rfl
  obtain ⟨hfresh, -, hreset, -, hlater⟩ := reset_undoes_iteration hstarts history history
  exact ⟨hstarts, by decide +kernel, by decide +kernel, by decide +kernel, by decide +kernel,
    hfresh, hreset, hlater⟩

end Session

end Minimization

end Interleave
