import Interleave.Proofs.EventTree.Decisions
import Interleave.Proofs.Program.Finishing
import Interleave.Strategy.Scripted

/-!
# Schedule and tree in lock step

The schedule of a run is logged by the scheduler, its tree is recorded from what the strategy is
told. Still they agree: the decision of every step of the tree is the decision of the schedule at
the same place, and the schedule is at most one decision ahead (`Program.schedule_keeps_step`). An
operation that is granted control owes the step it was scheduled for, and pays it before anything
else is decided (`Turn.Path.pays`). A debt remains at the end of a run only if a monitor overheats.
-/

namespace Interleave

variable {σ β : Type}

/-! ## Turns and debts -/

/-- The decision that has been answered and is still to be announced by a step. -/
def Turn.owed : Turn → List Decision
  | .holds _ => []
  | .granted op _ => [.schedule op]
  | .decided _ (.boolean b) => [.boolean b]
  | .decided _ (.integer n) => [.integer n]

/-- An exchange that contains a decision leaves it owed, and one that makes a step pays for it. -/
theorem Turn.Goes.pays {first second : Turn} {e : Exchange} (h : Goes first e second) :
    first.owed ++ e.verdict?.toList = e.told?.toList ++ second.owed := by
  cases h with
  | unbound => exact List.append_nil _
  | fairness => exact List.append_nil _
  | logged => exact List.append_nil _
  | grants => rfl
  | flips => rfl
  | rolls => rfl
  | @chosen op choice => cases choice <;> rfl
  | monitored => rfl
  | created => rfl
  | started child =>
      simp only [Exchange.told?, Exchange.deed?, if_neg child]
      rfl
  | received => rfl
  | sent => rfl

/-- Along a path the decisions that are answered are those of the steps, up to what is owed at both
ends. -/
theorem Turn.Path.pays {first last : Turn} {l : List Exchange} (h : Path first l last) :
    first.owed ++ verdicts l = told l ++ last.owed := by
  induction h with
  | nil => exact List.append_nil _
  | @cons first second last e l goes _ ih =>
      have hverdicts : verdicts (e :: l) = e.verdict?.toList ++ verdicts l := by
        cases hv : e.verdict? <;> simp [verdicts, hv]
      calc first.owed ++ verdicts (e :: l)
          = (first.owed ++ e.verdict?.toList) ++ verdicts l := by
            rw [hverdicts, List.append_assoc]
        _ = e.told?.toList ++ (second.owed ++ verdicts l) := by
            rw [goes.pays, List.append_assoc]
        _ = told (e :: l) ++ last.owed := by
            rw [ih, told_cons, List.append_assoc]

/-- At most one decision is owed, and where a run has to go on it is an operation. -/
theorem Machine.At.owed {m : Machine σ β} {turn : Turn} (h : m.At turn) :
    turn.owed = [] ∨ ∃ d next, turn = .granted d next := by
  cases turn with
  | holds a => exact Or.inl rfl
  | granted d next => exact Or.inr ⟨d, next, rfl⟩
  | decided a choice => exact h.elim

namespace Machine

variable [Strategy σ]

/-! ## The end of a run -/

/-- The step that stops a run makes no step of the tree, and it logs a decision only if a monitor
overheats. -/
theorem Stops.ahead {p : Program β} {m m' : Machine σ β} {thread : Thread β} {l : List Exchange}
    (h : Stops p m thread l m') :
    told l = [] ∧ ((logged l = [] ∧ ¬m'.scheduler.IsOverheated) ∨
      ((∃ d, logged l = [.schedule d]) ∧ m'.scheduler.IsOverheated)) := by
  -- in all cases but the last the bug is none or another one
  cases h with
  | asserted stopped bug =>
      refine ⟨rfl, Or.inl ⟨rfl, ?_⟩⟩
      rintro ⟨monitor, hmonitor⟩
      rw [bug] at hmonitor
      cases hmonitor
  | @failed m' e halted bug error request =>
      have hcool : ¬m'.scheduler.IsOverheated := by
        rintro ⟨monitor, hmonitor⟩
        rw [bug] at hmonitor
        cases hmonitor
      -- the request is neither a log entry nor a step
      cases e with
      | operation choices current answer => exact ⟨rfl, Or.inl ⟨rfl, hcool⟩⟩
      | boolean max answer => exact ⟨rfl, Or.inl ⟨rfl, hcool⟩⟩
      | integer max answer => exact ⟨rfl, Or.inl ⟨rfl, hcool⟩⟩
      | _ => cases request
  | cut halted bug =>
      refine ⟨rfl, Or.inl ⟨rfl, ?_⟩⟩
      rintro ⟨monitor, hmonitor⟩
      have hkind := bug _ hmonitor
      cases hkind
  | declined halted bug cool => exact ⟨rfl, Or.inl ⟨rfl, cool⟩⟩
  | @undecided m' e halted bug value =>
      have hcool : ¬m'.scheduler.IsOverheated := by
        rintro ⟨monitor, hmonitor⟩
        rw [bug] at hmonitor
        cases hmonitor
      rcases value with ⟨max, rfl⟩ | ⟨max, rfl⟩
      · exact ⟨rfl, Or.inl ⟨rfl, hcool⟩⟩
      · exact ⟨rfl, Or.inl ⟨rfl, hcool⟩⟩
  | @overheated m' choices d fair overheats halted bug => exact ⟨rfl, Or.inr ⟨⟨d, rfl⟩, bug⟩⟩

/-- The decisions that a run has logged are those of its steps, with at most one more behind them.
Once the run is at its end, that one is there if and only if a monitor has overheated. -/
theorem exists_ahead {p : Program β} {m : Machine σ β} {a : OperationId} (h : m.At (.holds a))
    {n : Nat} (hwrap : m.nextOperation.toNat + n < UInt64.size) :
    ∃ ahead, (logged (runSaid p n m)).map Decision.plain = told (runSaid p n m) ++ ahead ∧
      (ahead = [] ∨ ∃ d, ahead = [.schedule d]) ∧
      (step? p (runFor p n m) = none → (ahead ≠ [] ↔ (runFor p n m).scheduler.IsOverheated)) := by
  -- as long as operations take turns, no bug and no error are there
  have hturns : ∀ (k : Nat) (turn : Turn), Turn.Path (.holds a) (runSaid p k m) turn →
      (runFor p k m).At turn →
        (logged (runSaid p k m)).map Decision.plain = told (runSaid p k m) ++ turn.owed := by
    intro k turn hpath hat
    obtain ⟨b, hcontrol⟩ := hat.inControl
    rw [(passage_runFor p k m).logged hcontrol.error]
    exact hpath.pays
  rcases run_turns h hwrap with ⟨turn, hpath, hat⟩ | ⟨k, thread, m', hk, hstops⟩
  · obtain ⟨b, hcontrol⟩ := hat.inControl
    have hcool : ¬(runFor p n m).scheduler.IsOverheated := by
      rintro ⟨monitor, hmonitor⟩
      rw [hcontrol.bug] at hmonitor
      cases hmonitor
    refine ⟨turn.owed, hturns n turn hpath hat, ?_, fun hended => ?_⟩
    · rcases hat.owed with howed | ⟨d, next, rfl⟩
      · exact Or.inl howed
      · exact Or.inr ⟨d, rfl⟩
    · -- an operation that owes a step has not come to its end
      rcases hat.owed with howed | ⟨d, next, rfl⟩
      · exact ⟨fun hne => absurd howed hne, fun hhot => absurd hhot hcool⟩
      · exact absurd hended hat.ready
  · -- the turns, the step that stops the run, and the rest, in which nothing is said
    obtain ⟨b, hpath, hat⟩ := hstops.path
    obtain ⟨-, hsame, hsaid⟩ := hstops.rest hk
    have hbug : (runFor p n m).scheduler.IsOverheated ↔ m'.scheduler.IsOverheated := by
      unfold Scheduler.IsOverheated
      rw [hsame]
    have hbefore := hturns k (.holds b) hpath hat
    obtain ⟨htold, hlast⟩ := hstops.stops.ahead
    refine ⟨(logged (stepSaid p (runFor p k m))).map Decision.plain, ?_, ?_, fun _ => ?_⟩
    · rw [hsaid, logged_append, List.map_append, hbefore, told_append, htold]
      simp only [Turn.owed, List.append_nil]
    · rcases hlast with ⟨hlogged, -⟩ | ⟨⟨d, hlogged⟩, -⟩
      · rw [hlogged]
        exact Or.inl rfl
      · rw [hlogged]
        exact Or.inr ⟨d, rfl⟩
    · rw [hbug]
      rcases hlast with ⟨hlogged, hcool⟩ | ⟨⟨d, hlogged⟩, hhot⟩
      · rw [hlogged]
        exact ⟨fun hne => absurd rfl hne, fun hhot => absurd hhot hcool⟩
      · rw [hlogged]
        exact ⟨fun _ => hhot, fun _ => List.cons_ne_nil _ _⟩

/-! ## Schedule and tree -/

/-- The recorded tree of a run has the decisions of the steps that the run has made. -/
theorem decisions_recordedTree [Records σ] (p : Program β) (n : Nat) (m : Machine σ β)
    (hempty : Records.recorder m.scheduler.strategy = .empty) :
    (runFor p n m).recordedTree.decisions = told (runSaid p n m) := by
  have hrecorder := Records.hearsAll (follows_run p n m)
  rw [hempty] at hrecorder
  have hgrown := Recorder.sound_empty.decisions_hearAll Nat.zero_lt_one (runSaid p n m)
  have hroot : Recorder.empty.tree.decisions = [] := rfl
  rw [hroot, List.nil_append] at hgrown
  rw [← hgrown]
  unfold recordedTree EventTree.decisions
  rw [hrecorder, (Recorder.same_recordEnd _ _).1]

end Machine

/-- Position by position the schedule of a run has the decisions of the recorded tree: the value of
a choice, a fair one or not, and the source of every other step. At any moment of the run the
schedule is at most one operation ahead; at its end it is so if and only if the run was ended by a
monitor that overheated at this very decision. So every operation that is scheduled takes exactly
the next step, which is a creation, a start, a send or a receive. -/
theorem Program.schedule_keeps_step [Strategy σ] (p : Program β) (c : Configuration) (i : Nat)
    (a : σ) (n : Nat) (hn : n ≤ Machine.stepLimit) :
    let m := Machine.runFor p n (.start p (.new i c (Recorded.ofStrategy a)))
    let schedule := m.scheduler.outcome.schedule.toList.map Decision.plain
    ∃ ahead, schedule = m.recordedTree.decisions ++ ahead ∧
      (ahead = [] ∨ ∃ d, ahead = [.schedule d]) ∧
      (Machine.step? p m = none → (ahead ≠ [] ↔ m.scheduler.IsOverheated)) ∧
      ∀ (k : Nat) (d : OperationId), schedule[k]? = some (.schedule d) →
        (k + 1 = schedule.length ∧ ahead = [.schedule d]) ∨
        ∃ step, m.recordedTree.steps[k + 1]? = some step ∧ step.kind.isChoice = false ∧
          step.source = d := by
  intro m schedule
  let start : Machine (Recorded σ) β := .start p (.new i c (Recorded.ofStrategy a))
  have hwrap : start.nextOperation.toNat + n < UInt64.size := by
    have hlimit : 1 + Machine.stepLimit < UInt64.size := by decide
    exact Nat.lt_of_le_of_lt (Nat.add_le_add_left hn 1) hlimit
  obtain ⟨ahead, hlogged, hone, hend⟩ := Machine.exists_ahead (p := p)
    (Machine.at_start p i c (Recorded.ofStrategy a)) hwrap
  have hfresh : start.scheduler.schedule = #[] := rfl
  have hschedule : m.scheduler.outcome.schedule.toList = logged (Machine.runSaid p n start) := by
    show (Machine.runFor p n start).scheduler.schedule.toList = _
    rw [Machine.schedule_runFor, hfresh]
    simp [Schedule.extend]
  have hdecisions : m.recordedTree.decisions = told (Machine.runSaid p n start) :=
    Machine.decisions_recordedTree p n start rfl
  have hagree : schedule = m.recordedTree.decisions ++ ahead := by
    rw [hdecisions, ← hlogged, ← hschedule]
  refine ⟨ahead, hagree, hone, hend, fun k d hk => ?_⟩
  rw [hagree] at hk ⊢
  rcases Nat.lt_or_ge k m.recordedTree.decisions.length with hlt | hge
  · -- the decision is that of the step at the same place
    right
    rw [List.getElem?_append_left hlt] at hk
    unfold EventTree.decisions at hk
    rw [List.getElem?_map, List.getElem?_tail, Option.map_eq_some_iff] at hk
    obtain ⟨step, hstep, hdecision⟩ := hk
    rw [Array.getElem?_toList] at hstep
    exact ⟨step, hstep, Step.decision_eq_schedule hdecision⟩
  · -- it is the one that is ahead
    left
    rw [List.getElem?_append_right hge] at hk
    rcases hone with rfl | ⟨d', rfl⟩
    · cases hk
    · obtain ⟨hzero, hsame⟩ := List.getElem?_eq_some_iff.mp hk
      rw [List.length_singleton, Nat.lt_one_iff] at hzero
      simp only [hzero, List.getElem_cons_zero] at hsame
      refine ⟨?_, by rw [hsame]⟩
      rw [List.length_append, List.length_singleton]
      omega

/-- A harness whose monitor stays hot while it asks for a fair choice and sends itself messages. -/
def hotHarness : Program Nat where
  act
    | _, 0 => .monitor "progress" true 1
    | _, 1 => .boolean (some "toss") fun _ => 2
    | _, body => .send ⟨0⟩ "ping" 7 body
  main := 0

/-- A fair strategy without prepared answers, which names the first operation that is enabled. -/
def firstEnabled : Scripted where
  answers := []
  runs := []
  withheld := []
  fair := true
  maxSteps := 0
  endError := none
  refusals := ⟨"", "", ""⟩

/-- Under a threshold of one decision the monitor overheats at the second one, which makes no step
any more. -/
theorem Program.schedule_keeps_step_of_hotHarness :
    let m := Machine.runFor hotHarness 10
      (.start hotHarness (.new 0 { livenessThreshold := 1 } (Recorded.ofStrategy firstEnabled)))
    Machine.step? hotHarness m = none ∧ m.scheduler.IsOverheated ∧
      m.recordedTree.decisions = [.boolean false, .schedule ⟨0⟩] ∧
      ∃ d, m.scheduler.outcome.schedule.toList.map Decision.plain =
        [.boolean false, .schedule ⟨0⟩, .schedule d] := by
  intro m
  have hfacts : (Machine.step? hotHarness m).isNone = true ∧
      m.scheduler.bug = some ⟨.liveness "progress", Scheduler.overheated "progress"⟩ ∧
      m.recordedTree.decisions = [.boolean false, .schedule ⟨0⟩] := by
    decide +kernel
  obtain ⟨hstep, hbug, hdecisions⟩ := hfacts
  have hended : Machine.step? hotHarness m = none := Option.isNone_iff_eq_none.mp hstep
  have hhot : m.scheduler.IsOverheated := ⟨"progress", hbug⟩
  obtain ⟨ahead, hagree, hone, hend, -⟩ := Program.schedule_keeps_step hotHarness
    { livenessThreshold := 1 } 0 firstEnabled 10 (by decide)
  have hahead : ahead ≠ [] := (hend hended).mpr hhot
  refine ⟨hended, hhot, hdecisions, ?_⟩
  rcases hone with rfl | ⟨d, rfl⟩
  · exact absurd rfl hahead
  · refine ⟨d, ?_⟩
    rw [hagree, hdecisions]
    rfl

end Interleave
