import Interleave.Proofs.Minimization.EditSearch
import Interleave.Proofs.Minimization.TransitionSearch
import Interleave.Proofs.Minimization.Verdicts
import Mathlib.Algebra.GroupWithZero.Nat

/-!
# How many runs a minimization takes

Phases only move forward (`Phase.rank`), and while a phase lasts, every run that is taken into
account uses up one of those that its candidates or its window can still take
(`Editor.runsPending`). A candidate that fails makes place for its two halves, which together cost
less than it did (`Range.sum_halves`). `Editor.runsLeft` bounds the runs up to the end. How many
sends there are to edit and how many steps to search is known only when the stage begins; until then
the bound speaks of the tree that is going to be accepted (`Editor.editedSends`,
`Editor.searchedSteps`).
-/

namespace Interleave.Minimization

/-- The place of a phase in a minimization. -/
def Phase.rank : Phase → Nat
  | .initial => 0
  | .scheduleReplay => 1
  | .treeReplay .edits => 2
  | .edit _ => 3
  | .treeReplay .search => 4
  | .search _ _ => 5
  | .completed _ => 6

/-- The candidates that a range can come to, itself included. -/
def Range.trialBound (r : Range) : Nat :=
  2 * (r.last - r.first) + 1

/-- The candidates that a layout of `n` droppable sends can come to. -/
def Layout.trialBound : Layout → Nat → Nat
  | .linear, n => n
  | .bisect, n => 2 * n - 1

theorem Range.sum_halves (r : Range) :
    (r.halves.map Range.trialBound).sum + 1 ≤ r.trialBound := by
  unfold Range.halves Range.trialBound
  split
  · simp only [List.map_cons, List.map_nil, List.sum_cons, List.sum_nil]
    omega
  · simp

namespace Editor

theorem sum_layOut (layout : Layout) (n : Nat) :
    ((layOut layout n).map Range.trialBound).sum = layout.trialBound n := by
  cases n with
  | zero => cases layout <;> rfl
  | succ n =>
      cases layout with
      | linear =>
          have hones : (List.range (n + 1)).map (Range.trialBound ∘ fun i => ⟨i + 1, i + 1⟩) =
              List.replicate (n + 1) 1 := by
            simp [List.eq_replicate_iff, Range.trialBound]
          simp only [layOut, List.map_map, hones, Layout.trialBound]
          simp
      | bisect =>
          simp only [layOut, List.map_cons, List.map_nil, List.sum_cons, List.sum_nil,
            Range.trialBound, Layout.trialBound]
          omega

/-- The reproductions in a row that a candidate needs. -/
def needed (e : Editor) : Nat :=
  Nat.max e.settings.replays 1

/-- The runs that the current candidate and the untried ones, or the window of the search, can still
take. -/
def runsPending (e : Editor) : Nat :=
  match e.phase with
  | .edit range =>
      e.needed * ((range :: e.untried).map Range.trialBound).sum - e.confirmations
  | phase => trialsLeft phase

/-- The runs behind the edits, if the search is one in a tree of the given number of steps. -/
def runsBehind (e : Editor) (steps : Nat) : Nat :=
  if e.settings.findsTransition then 1 + Nat.clog 2 steps else 0

/-- The runs up to the end of a minimization, if the edits are those of `n` droppable sends and the
search is one in a tree of the given number of steps. -/
def runsLeft (n steps : Nat) (e : Editor) : Nat :=
  match e.phase with
  | .scheduleReplay => 2 + e.needed * e.settings.layout.trialBound n + e.runsBehind steps
  | .treeReplay .edits => 1 + e.needed * e.settings.layout.trialBound n + e.runsBehind steps
  | .edit _ => e.runsPending + e.runsBehind steps
  | .treeReplay .search => 1 + Nat.clog 2 steps
  | .search left right => Nat.clog 2 (right - left + 1)
  | .initial | .completed _ => 0

section RunsLeft

variable {e : Editor} (n steps : Nat)

theorem runsLeft_of_scheduleReplay (h : e.phase = .scheduleReplay) : e.runsLeft n steps =
    2 + e.needed * e.settings.layout.trialBound n + e.runsBehind steps := by
  simp only [runsLeft, h]

theorem runsLeft_of_beforeEdits (h : e.phase = .treeReplay .edits) : e.runsLeft n steps =
    1 + e.needed * e.settings.layout.trialBound n + e.runsBehind steps := by
  simp only [runsLeft, h]

theorem runsLeft_of_edit {range : Range} (h : e.phase = .edit range) :
    e.runsLeft n steps = e.runsPending + e.runsBehind steps := by
  simp only [runsLeft, h]

theorem runsLeft_of_beforeSearch (h : e.phase = .treeReplay .search) :
    e.runsLeft n steps = 1 + Nat.clog 2 steps := by
  simp only [runsLeft, h]

theorem runsLeft_of_search {left right : Nat} (h : e.phase = .search left right) :
    e.runsLeft n steps = Nat.clog 2 (right - left + 1) := by
  simp only [runsLeft, h]

theorem runsLeft_nextCandidate (h : e.confirmations = 0) : e.nextCandidate.runsLeft n steps ≤
    e.needed * (e.untried.map Range.trialBound).sum + e.runsBehind steps := by
  rcases e.nextCandidate_cases with
    ⟨range, rest, huntried, heq⟩ | ⟨-, hfinds, heq⟩ | ⟨-, -, heq⟩ <;> rw [heq]
  · simp [runsLeft, runsPending, runsBehind, needed, huntried, h]
  · simp [runsLeft, runsBehind, hfinds]
  · exact Nat.zero_le _

theorem runsLeft_continueSearch (left right : Nat) :
    (e.continueSearch left right).runsLeft n steps ≤ Nat.clog 2 (right - left + 1) := by
  rcases e.continueSearch_cases left right with ⟨-, heq⟩ | ⟨-, heq⟩ <;> rw [heq]
  · exact Nat.zero_le _
  · exact Nat.le_refl _

theorem runsLeft_enter_edits (h : e.confirmations = 0) {tree : EventTree}
    (hbest : e.best = some tree) : (e.enter .edits).runsLeft n steps ≤
      e.needed * e.settings.layout.trialBound (countDroppable e.settings tree) +
        e.runsBehind steps := by
  have hcount : (e.best.map (countDroppable e.settings)).getD 0 = countDroppable e.settings tree :=
    by rw [hbest, Option.map_some, Option.getD_some]
  have hle := runsLeft_nextCandidate (e := { e with
    candidates := (e.best.map (countDroppable e.settings)).getD 0
    untried := layOut e.settings.layout ((e.best.map (countDroppable e.settings)).getD 0) })
    n steps h
  rw [sum_layOut] at hle
  refine hle.trans (Nat.le_of_eq ?_)
  rw [hcount]
  rfl

theorem runsLeft_enter_search {tree : EventTree} (hbest : e.best = some tree) :
    (e.enter .search).runsLeft n steps ≤ Nat.clog 2 tree.size := by
  simp only [enter, beginSearch, hbest, Option.map_some, Option.getD_some]
  refine (runsLeft_continueSearch n steps 0 tree.lastIndex).trans ?_
  unfold EventTree.lastIndex
  -- the first window has one cutoff for every step; an empty tree counts as one of a single step
  obtain hzero | hpos := Nat.eq_zero_or_pos tree.size
  · simp [hzero]
  · exact Nat.clog_mono_right 2 (by omega)

end RunsLeft

/-- A range costs more than its halves, even after all but the last of its confirmations. -/
theorem Orderly.lt_runsPending {e : Editor} (h : e.Orderly) {range : Range}
    (hphase : e.phase = .edit range) :
    e.needed * ((range.halves ++ e.untried).map Range.trialBound).sum < e.runsPending := by
  have hrange : e.needed * (range.halves.map Range.trialBound).sum + e.needed ≤
      e.needed * range.trialBound := Nat.mul_le_mul_left e.needed range.sum_halves
  have hlt : e.confirmations < e.needed := h.unconfirmed
  simp only [runsPending, hphase, List.map_append, List.sum_append, List.map_cons, List.sum_cons,
    Nat.mul_add]
  omega

/-! ## One run -/

/-- The tree with which the given stage begins, if a run of the replay before it ends so. -/
def stageTree (e : Editor) (stage : Stage) (bug : Option BugKind) (tree : EventTree) :
    Option EventTree :=
  if e.phase = .treeReplay stage ∧ e.reproduces bug = true then some tree else none

theorem stageTree_of_reproduced {e : Editor} {stage : Stage} (h : e.phase = .treeReplay stage)
    {bug : Option BugKind} (hrep : e.reproduces bug = true) (tree : EventTree) :
    e.stageTree stage bug tree = some tree :=
  if_pos ⟨h, hrep⟩

theorem stageTree_of_ne {e : Editor} {stage : Stage} (h : e.phase ≠ .treeReplay stage)
    (bug : Option BugKind) (tree : EventTree) : e.stageTree stage bug tree = none :=
  if_neg fun hstage => h hstage.1

section EndRun

variable {e : Editor} (h : e.Orderly) {bug : Option BugKind} {tree : EventTree}

include h

/-- A replay that is accepted leaves what the stage it begins can take. -/
theorem Orderly.runsLeft_treeReplayed {next : Stage} (hphase : e.phase = .treeReplay next)
    (hrep : e.reproduces bug = true) (n steps : Nat) :
    ((e.counted.accept bug tree).enter next).runsLeft n steps <
      e.runsLeft (((e.stageTree .edits bug tree).map (countDroppable e.settings)).getD n)
        (((e.stageTree .search bug tree).map (·.size)).getD steps) := by
  have hrested : e.confirmations = 0 := h.rested fun range => by simp [hphase]
  have hthis := stageTree_of_reproduced hphase hrep tree
  cases next with
  | edits =>
      have hle : ((e.counted.accept bug tree).enter .edits).runsLeft n steps ≤
          e.needed * e.settings.layout.trialBound (countDroppable e.settings tree) +
            e.runsBehind steps := by
        refine runsLeft_enter_edits n steps ?_ rfl
        exact hrested
      rw [hthis, stageTree_of_ne (by simp [hphase]), runsLeft_of_beforeEdits _ _ hphase,
        Option.map_some, Option.map_none, Option.getD_some, Option.getD_none]
      omega
  | search =>
      have hle : ((e.counted.accept bug tree).enter .search).runsLeft n steps ≤
          Nat.clog 2 tree.size := runsLeft_enter_search n steps rfl
      rw [hthis, runsLeft_of_beforeSearch _ _ hphase, Option.map_some, Option.getD_some]
      omega

/-- A candidate that is settled leaves what its halves and the untried ones can take. -/
theorem Orderly.runsLeft_settled {range : Range} (hphase : e.phase = .edit range) {e' : Editor}
    (hrested : e'.confirmations = 0) (hsettings : e'.settings = e.settings)
    (hsum : (e'.untried.map Range.trialBound).sum ≤
      ((range.halves ++ e.untried).map Range.trialBound).sum) (n steps : Nat) :
    e'.nextCandidate.runsLeft n steps < e.runsLeft n steps := by
  have hneeded : e'.needed = e.needed := by rw [needed, needed, hsettings]
  have hbehind : e'.runsBehind steps = e.runsBehind steps := by
    rw [runsBehind, runsBehind, hsettings]
  have hle := runsLeft_nextCandidate n steps hrested
  have hlt := h.lt_runsPending hphase
  have hmul := Nat.mul_le_mul_left e.needed hsum
  rw [hneeded, hbehind] at hle
  rw [runsLeft_of_edit n steps hphase]
  omega

/-- A run that is taken into account uses up one of those that are left. -/
theorem Orderly.runsLeft_endRun (hok : (e.endRun bug tree).1 = .ok ())
    (hopen : e.isCompleted = false) (n steps : Nat) :
    (e.endRun bug tree).2.runsLeft n steps <
      e.runsLeft (((e.stageTree .edits bug tree).map (countDroppable e.settings)).getD n)
        (((e.stageTree .search bug tree).map (·.size)).getD steps) := by
  have hending := e.ending_endRun bug tree
  -- only where a replay is accepted does a tree decide what is left
  have hnone : (∀ stage, e.phase ≠ .treeReplay stage) →
      e.runsLeft (((e.stageTree .edits bug tree).map (countDroppable e.settings)).getD n)
        (((e.stageTree .search bug tree).map (·.size)).getD steps) = e.runsLeft n steps := by
    intro hne
    rw [stageTree_of_ne (hne .edits), stageTree_of_ne (hne .search)]
    rfl
  generalize (e.endRun bug tree).1 = result, (e.endRun bug tree).2 = e' at hending hok ⊢
  cases hending with
  | unstarted | scheduleRejected | treeRejected => cases hok
  | finished transition hphase => simp [isCompleted, hphase, Phase.isCompleted] at hopen
  | scheduleReplayed hphase =>
      rw [hnone (by simp [hphase]), runsLeft_of_scheduleReplay _ _ hphase,
        runsLeft_of_beforeEdits _ _ rfl]
      exact Nat.add_lt_add_right (Nat.add_lt_add_right Nat.one_lt_two _) _
  | treeReplayed next hphase hrep => exact h.runsLeft_treeReplayed hphase hrep n steps
  | repeated range hphase hrep hlt =>
      have hleft := runsLeft_of_edit (e := { e.counted with confirmations := e.confirmations + 1 })
        n steps hphase
      have hcost := h.lt_runsPending hphase
      rw [hnone (by simp [hphase]), runsLeft_of_edit n steps hphase, hleft]
      refine Nat.add_lt_add_right ?_ _
      simp only [runsPending, counted, hphase, needed] at hcost ⊢
      omega
  | confirmed range hphase =>
      rw [hnone (by simp [hphase])]
      refine h.runsLeft_settled hphase ?_ ?_ ?_ n steps
      · rfl
      · rfl
      · simp [accept, settle, counted]
  | refuted range hphase =>
      rw [hnone (by simp [hphase])]
      refine h.runsLeft_settled hphase ?_ ?_ ?_ n steps
      · rfl
      · rfl
      · exact Nat.le_refl _
  | lowered left right hphase =>
      rw [hnone (by simp [hphase]), runsLeft_of_search n steps hphase]
      exact lt_of_le_of_lt (runsLeft_continueSearch n steps _ _)
        (clog_halves (h.window left right hphase)).1
  | raised left right hphase =>
      rw [hnone (by simp [hphase]), runsLeft_of_search n steps hphase]
      exact lt_of_le_of_lt (runsLeft_continueSearch n steps _ _)
        (clog_halves (h.window left right hphase)).2

end EndRun

/-! ## The way to the end -/

theorem rank_nextCandidate (e : Editor) : 3 ≤ e.nextCandidate.phase.rank := by
  obtain ⟨range, hphase⟩ | ⟨hbehind, -⟩ := phase_nextCandidate e
  · rw [hphase]
    exact Nat.le_refl 3
  · generalize e.nextCandidate.phase = phase at hbehind
    cases hbehind <;> simp [Phase.rank]

theorem rank_continueSearch (e : Editor) (left right : Nat) :
    5 ≤ (e.continueSearch left right).phase.rank := by
  rcases e.continueSearch_cases left right with ⟨-, heq⟩ | ⟨-, heq⟩ <;> rw [heq]
  · exact Nat.le_succ 5
  · exact Nat.le_refl 5

/-- The end of a run never leads back, and from a replay that is accepted it leads on. -/
theorem rank_endRun (e : Editor) (bug : Option BugKind) (tree : EventTree) :
    e.phase.rank ≤ (e.endRun bug tree).2.phase.rank ∧
      ((e.endRun bug tree).1 = .ok () → (∃ stage, e.phase = .treeReplay stage) →
        e.phase.rank < (e.endRun bug tree).2.phase.rank) := by
  have hending := e.ending_endRun bug tree
  generalize (e.endRun bug tree).1 = result, (e.endRun bug tree).2 = e' at hending ⊢
  cases hending with
  | unstarted | scheduleRejected | treeRejected => exact ⟨Nat.le_refl _, nofun⟩
  | scheduleReplayed hphase => simp [hphase, Phase.rank]
  | treeReplayed next hphase =>
      have hlt : e.phase.rank < ((e.counted.accept bug tree).enter next).phase.rank := by
        cases next with
        | edits => exact hphase ▸ rank_nextCandidate _
        | search => exact hphase ▸ rank_continueSearch _ _ _
      exact ⟨Nat.le_of_lt hlt, fun _ _ => hlt⟩
  | repeated range hphase => exact ⟨Nat.le_refl _, by simp [hphase]⟩
  | confirmed range hphase | refuted range hphase =>
      exact ⟨hphase ▸ rank_nextCandidate _, by simp [hphase]⟩
  | lowered left right hphase | raised left right hphase =>
      exact ⟨hphase ▸ rank_continueSearch _ _ _, by simp [hphase]⟩
  | finished transition hphase => exact ⟨Nat.le_refl _, by simp [hphase]⟩

/-- Phases only move forward. -/
theorem rank_after (e : Editor) (c : Call) : e.phase.rank ≤ (e.after c).phase.rank := by
  by_cases hc : ∃ bug tree, c = .endRun bug tree
  · obtain ⟨bug, tree, rfl⟩ := hc
    exact (e.rank_endRun bug tree).1
  · rw [(after_of_not_endRun e fun bug tree heq => hc ⟨bug, tree, heq⟩).phase]

theorem isCompleted_iff {e : Editor} :
    e.isCompleted = true ↔ ∃ transition, e.phase = .completed transition := by
  unfold isCompleted
  cases e.phase <;> simp [Phase.isCompleted]

theorem isCompleted_iff_rank {e : Editor} : e.isCompleted = true ↔ 6 ≤ e.phase.rank := by
  unfold isCompleted
  cases e.phase with
  | treeReplay next => cases next <;> simp [Phase.isCompleted, Phase.rank]
  | _ => simp [Phase.isCompleted, Phase.rank]

/-- A completed minimization stays so. -/
theorem isCompleted_afterAll {e : Editor} (h : e.isCompleted = true) (calls : List Call) :
    (e.afterAll calls).isCompleted = true :=
  afterAll_induction (P := fun e => e.isCompleted = true)
    (fun e c he => isCompleted_iff_rank.mpr ((isCompleted_iff_rank.mp he).trans (e.rank_after c)))
    h calls

/-- While a minimization goes on, at least one run is left. -/
theorem Orderly.runsLeft_pos {e : Editor} (h : e.Orderly) (hopen : e.isCompleted = false)
    (n steps : Nat) : 0 < e.runsLeft n steps := by
  cases hphase : e.phase with
  | initial => exact absurd hphase h.started
  | completed transition => simp [isCompleted, hphase, Phase.isCompleted] at hopen
  | scheduleReplay =>
      rw [runsLeft_of_scheduleReplay n steps hphase]
      omega
  | treeReplay next =>
      cases next with
      | edits =>
          rw [runsLeft_of_beforeEdits n steps hphase]
          omega
      | search =>
          rw [runsLeft_of_beforeSearch n steps hphase]
          omega
  | edit range =>
      rw [runsLeft_of_edit n steps hphase]
      have := h.lt_runsPending hphase
      omega
  | search left right =>
      rw [runsLeft_of_search n steps hphase]
      exact Nat.clog_pos (Nat.le_refl 2) (by have := h.window left right hphase; omega)

/-- Whether a call ends a run that is taken into account. -/
def takes (e : Editor) : Call → Bool
  | .endRun bug tree => (e.endRun bug tree).1.isOk
  | _ => false

/-- The number of runs in a sequence of calls that are taken into account. -/
def runsTaken (e : Editor) : List Call → Nat
  | [] => 0
  | c :: calls => (e.takes c).toNat + (e.after c).runsTaken calls

/-- The droppable sends of the tree with which the edits begin, if they begin. -/
def editedSends (e : Editor) : List Call → Nat
  | [] => 0
  | .endRun bug tree :: calls =>
      ((e.stageTree .edits bug tree).map (countDroppable e.settings)).getD
        ((e.endRun bug tree).2.editedSends calls)
  | c :: calls => (e.after c).editedSends calls

/-- The steps of the tree with which the search begins, if it begins. -/
def searchedSteps (e : Editor) : List Call → Nat
  | [] => 0
  | .endRun bug tree :: calls =>
      ((e.stageTree .search bug tree).map (·.size)).getD ((e.endRun bug tree).2.searchedSteps calls)
  | c :: calls => (e.after c).searchedSteps calls

/-- The runs up to the end of a minimization that goes on with the given calls. -/
def runBound (e : Editor) (calls : List Call) : Nat :=
  e.runsLeft (e.editedSends calls) (e.searchedSteps calls)

/-- Calls that do not end a run are of no account. -/
theorem runsLeft_of_sameSearch {e e' : Editor} (h : e.SameSearch e') (n steps : Nat) :
    e'.runsLeft n steps = e.runsLeft n steps := by
  obtain ⟨cursor, seen, rfl⟩ := h
  rfl

/-- A stage does not begin with a run that is not taken into account. -/
theorem stageTree_of_error {e : Editor} {bug : Option BugKind} {tree : EventTree}
    {error : StrategyError} (h : (e.endRun bug tree).1 = .error error) (stage : Stage) :
    e.stageTree stage bug tree = none := by
  refine if_neg fun hstage => ?_
  simp [endRun, hstage.1, hstage.2] at h

theorem Orderly.after {e : Editor} (h : e.Orderly) (c : Call) : (e.after c).Orderly := by
  by_cases hc : ∃ bug tree, c = .endRun bug tree
  · obtain ⟨bug, tree, rfl⟩ := hc
    exact h.endRun bug tree
  · exact h.frame (after_of_not_endRun e fun bug tree heq => hc ⟨bug, tree, heq⟩)

/-- A call leaves less than there was before it if it ends a run that is taken into account, and no
more in any case. -/
theorem Orderly.runBound_after {e : Editor} (h : e.Orderly) (hopen : e.isCompleted = false)
    (c : Call) (calls : List Call) :
    (e.after c).runBound calls + (e.takes c).toNat ≤ e.runBound (c :: calls) := by
  cases c with
  | endRun bug tree =>
      cases hresult : (e.endRun bug tree).1 with
      | ok =>
          rw [show e.takes (.endRun bug tree) = true from congrArg Except.isOk hresult]
          exact h.runsLeft_endRun hresult hopen _ _
      | error error =>
          have hsame : (e.endRun bug tree).2 = e.counted := endRun_of_error hresult
          rw [show e.takes (.endRun bug tree) = false from congrArg Except.isOk hresult, runBound,
            runBound, editedSends, searchedSteps, stageTree_of_error hresult,
            stageTree_of_error hresult, show e.after (.endRun bug tree) = e.counted from hsame,
            hsame]
          exact Nat.le_refl _
  | beginRun | nextOperation | nextBoolean | nextInteger | onSend =>
      refine Nat.le_of_eq (runsLeft_of_sameSearch (after_of_not_endRun e ?_) _ _)
      rintro bug tree ⟨⟩

/-- A minimization is over when as many runs have been taken into account as were left. -/
theorem Orderly.isCompleted_of_runBound_le {e : Editor} (h : e.Orderly) (calls : List Call)
    (hle : e.runBound calls ≤ e.runsTaken calls) : (e.afterAll calls).isCompleted = true := by
  induction calls generalizing e with
  | nil =>
      cases hopen : e.isCompleted with
      | true => exact hopen
      | false => exact absurd hle (Nat.not_le.mpr (h.runsLeft_pos hopen _ _))
  | cons c calls ih =>
      cases hopen : e.isCompleted with
      | true => exact isCompleted_afterAll hopen (c :: calls)
      | false =>
          refine ih (h.after c) ?_
          have hstep := h.runBound_after hopen c calls
          rw [runsTaken] at hle
          omega

/-- A run that is taken into account takes a minimization to a later phase or uses up a run of the
phase that it is in. -/
theorem Orderly.advances_endRun {e : Editor} (h : e.Orderly) {bug : Option BugKind}
    {tree : EventTree} (hok : (e.endRun bug tree).1 = .ok ()) (hopen : e.isCompleted = false) :
    e.phase.rank < (e.endRun bug tree).2.phase.rank ∨
      (e.endRun bug tree).2.phase.rank = e.phase.rank ∧
        (e.endRun bug tree).2.runsLeft 0 0 < e.runsLeft 0 0 := by
  obtain ⟨hle, hlt⟩ := e.rank_endRun bug tree
  by_cases hreplay : ∃ stage, e.phase = .treeReplay stage
  · exact .inl (hlt hok hreplay)
  · obtain heq | hlt := Nat.eq_or_lt_of_le hle
    · have hnone : ∀ stage, e.stageTree stage bug tree = none :=
        fun stage => stageTree_of_ne (fun hphase => hreplay ⟨stage, hphase⟩) bug tree
      have hstep := h.runsLeft_endRun hok hopen 0 0
      rw [hnone, hnone] at hstep
      exact .inr ⟨heq.symm, hstep⟩
    · exact .inl hlt

/-- The runs that a minimization may take from its start: the replays of the input, those of the
candidates among the sends that are edited, the replay of the edited tree and the search in it. -/
def allowedRuns (start : Editor) (calls : List Call) : Nat :=
  let k := max 1 start.settings.replays
  let n := start.editedSends calls
  let b := if start.phase = .scheduleReplay then 1 else 0
  let t := match start.settings.layout with
    | .linear => n
    | .bisect => 2 * n - 1
  let v := if start.settings.findsTransition then 1 else 0
  let s := if start.settings.findsTransition then Nat.clog 2 (start.searchedSteps calls) else 0
  b + 1 + k * t + v + s

theorem runBound_of_beforeEdits {e : Editor} (h : BeforeEdits e.phase) (calls : List Call) :
    e.runBound calls = e.allowedRuns calls := by
  have hneeded : e.needed = max 1 e.settings.replays := Nat.max_comm ..
  have htrials : ∀ n, e.settings.layout.trialBound n = match e.settings.layout with
      | .linear => n
      | .bisect => 2 * n - 1 := fun n => by cases e.settings.layout <;> rfl
  have hbehind : ∀ steps, e.runsBehind steps = (if e.settings.findsTransition then 1 else 0) +
      if e.settings.findsTransition then Nat.clog 2 steps else 0 := fun steps => by
    unfold runsBehind
    split <;> rfl
  generalize hphase : e.phase = phase at h
  cases h with
  | scheduleReplay =>
      rw [runBound, runsLeft_of_scheduleReplay _ _ hphase, hneeded, htrials, hbehind, allowedRuns,
        hphase]
      simp only [if_true]
      omega
  | treeReplay =>
      rw [runBound, runsLeft_of_beforeEdits _ _ hphase, hneeded, htrials, hbehind, allowedRuns,
        hphase]
      simp only [reduceCtorEq, if_false]
      omega

end Editor

end Interleave.Minimization
