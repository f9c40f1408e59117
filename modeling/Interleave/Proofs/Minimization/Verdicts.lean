import Interleave.Proofs.Minimization.EditorCalls

/-!
# Verdicts

The end of a run is the only transition of the minimization, and what it does depends on the phase
and on whether the run found the bug that is looked for. `Editor.Ending` lists the cases, each with
its guard and the editor it leads to; `Editor.ending_endRun` says that these are all. What is known
of an end of a run is derived from there: what holds between two runs (`Editor.Orderly`), and which
ends may change the best tree and the bug that is looked for (`Editor.best_endRun`).
-/

namespace Interleave.Minimization

namespace Editor

/-- The editor once it has counted a run that is over. -/
def counted (e : Editor) : Editor :=
  { e with iterations := e.iterations + 1, cursor := none }

/-- The answer to a run that found the given bug, if any, and the editor after it. -/
inductive Ending (e : Editor) (bug : Option BugKind) (tree : EventTree) :
    Except StrategyError Unit → Editor → Prop where
  | unstarted : e.phase = .initial →
      Ending e bug tree (.error (.other "trace editor was never started")) e.counted
  | scheduleRejected : e.phase = .scheduleReplay → e.reproduces bug = false →
      Ending e bug tree (.error (.notReproducible .schedule)) e.counted
  | scheduleReplayed : e.phase = .scheduleReplay → e.reproduces bug = true →
      Ending e bug tree (.ok ()) { e.counted.accept bug tree with phase := .treeReplay .edits }
  | treeRejected (next : Stage) : e.phase = .treeReplay next → e.reproduces bug = false →
      Ending e bug tree (.error (.notReproducible .eventTree)) e.counted
  | treeReplayed (next : Stage) : e.phase = .treeReplay next → e.reproduces bug = true →
      Ending e bug tree (.ok ()) ((e.counted.accept bug tree).enter next)
  /-- One more reproduction of a candidate that needs yet another one. -/
  | repeated (range : Range) : e.phase = .edit range → e.reproduces bug = true →
      e.confirmations + 1 < Nat.max e.settings.replays 1 →
      Ending e bug tree (.ok ()) { e.counted with confirmations := e.confirmations + 1 }
  /-- The last reproduction that a candidate needs. -/
  | confirmed (range : Range) : e.phase = .edit range → e.reproduces bug = true →
      Nat.max e.settings.replays 1 ≤ e.confirmations + 1 →
      Ending e bug tree (.ok ())
        ((e.counted.settle ⟨range, true⟩).accept bug tree).nextCandidate
  | refuted (range : Range) : e.phase = .edit range → e.reproduces bug = false →
      Ending e bug tree (.ok ())
        { e.counted.settle ⟨range, false⟩ with untried := range.halves ++ e.untried }.nextCandidate
  | lowered (left right : Nat) : e.phase = .search left right → e.reproduces bug = true →
      Ending e bug tree (.ok ())
        ({ e.counted with searchTrials := e.searchTrials + 1 }.continueSearch left
          (Phase.middle left right))
  | raised (left right : Nat) : e.phase = .search left right → e.reproduces bug = false →
      Ending e bug tree (.ok ())
        ({ e.counted with searchTrials := e.searchTrials + 1 }.continueSearch
          (Phase.middle left right + 1) right)
  | finished (transition : Option Nat) : e.phase = .completed transition →
      Ending e bug tree (.ok ()) e.counted

/-- Every end of a run is one of the listed ones. -/
theorem ending_endRun (e : Editor) (bug : Option BugKind) (tree : EventTree) :
    e.Ending bug tree (e.endRun bug tree).1 (e.endRun bug tree).2 := by
  -- the state shows the phase that was matched, so that it is put back as that of the editor
  cases hphase : e.phase with
  | initial =>
      simp only [endRun, hphase]
      rw [← hphase]
      exact .unstarted hphase
  | scheduleReplay =>
      cases hrep : e.reproduces bug with
      | true =>
          simp only [endRun, hphase, hrep, if_true]
          exact .scheduleReplayed hphase hrep
      | false =>
          simp only [endRun, hphase, hrep, Bool.false_eq_true, if_false]
          rw [← hphase]
          exact .scheduleRejected hphase hrep
  | treeReplay next =>
      cases hrep : e.reproduces bug with
      | true =>
          simp only [endRun, hphase, hrep, if_true]
          rw [← hphase]
          exact .treeReplayed next hphase hrep
      | false =>
          simp only [endRun, hphase, hrep, Bool.false_eq_true, if_false]
          rw [← hphase]
          exact .treeRejected next hphase hrep
  | edit range =>
      cases hrep : e.reproduces bug with
      | true =>
          simp only [endRun, hphase, hrep, endTrial, if_true]
          rw [← hphase]
          split
          · rename_i hlt
            exact .repeated range hphase hrep hlt
          · rename_i hge
            exact .confirmed range hphase hrep (Nat.not_lt.mp hge)
      | false =>
          simp only [endRun, hphase, hrep, endTrial, Bool.false_eq_true, if_false]
          rw [← hphase]
          exact .refuted range hphase hrep
  | search left right =>
      cases hrep : e.reproduces bug with
      | true =>
          simp only [endRun, hphase, hrep, if_true]
          rw [← hphase]
          exact .lowered left right hphase hrep
      | false =>
          simp only [endRun, hphase, hrep, Bool.false_eq_true, if_false]
          rw [← hphase]
          exact .raised left right hphase hrep
  | completed transition =>
      simp only [endRun, hphase]
      rw [← hphase]
      exact .finished transition hphase

/-- An error leaves everything but the count of the runs as it was. -/
theorem endRun_of_error {e : Editor} {bug : Option BugKind} {tree : EventTree}
    {error : StrategyError} (h : (e.endRun bug tree).1 = .error error) :
    (e.endRun bug tree).2 = e.counted := by
  have hending := e.ending_endRun bug tree
  generalize (e.endRun bug tree).1 = result, (e.endRun bug tree).2 = e' at hending h ⊢
  cases hending with
  | unstarted | scheduleRejected | treeRejected => rfl
  | scheduleReplayed | treeReplayed | repeated | confirmed | refuted => cases h
  | lowered | raised | finished => cases h

/-! ## Going on -/

/-- The next candidate is the first range that is untried. Behind the last one the search for the
critical transition begins, if there is to be one. -/
theorem nextCandidate_cases (e : Editor) :
    (∃ range rest, e.untried = range :: rest ∧
        e.nextCandidate = { e with untried := rest, phase := .edit range }) ∨
      (e.untried = [] ∧ e.settings.findsTransition = true ∧
        e.nextCandidate = { e with phase := .treeReplay .search }) ∨
      e.untried = [] ∧ e.settings.findsTransition = false ∧
        e.nextCandidate = { e with phase := .completed none } := by
  unfold nextCandidate
  cases huntried : e.untried with
  | cons range rest => exact Or.inl ⟨range, rest, rfl, rfl⟩
  | nil =>
      cases hfinds : e.settings.findsTransition with
      | true => exact Or.inr (Or.inl ⟨rfl, rfl, by simp⟩)
      | false => exact Or.inr (Or.inr ⟨rfl, rfl, by simp⟩)

/-- The search ends where its indices meet. -/
theorem continueSearch_cases (e : Editor) (left right : Nat) :
    (right ≤ left ∧ e.continueSearch left right = { e with phase := .completed (some left) }) ∨
      left < right ∧ e.continueSearch left right = { e with phase := .search left right } := by
  unfold continueSearch
  by_cases hle : right ≤ left
  · exact Or.inl ⟨hle, by rw [if_pos hle]⟩
  · exact Or.inr ⟨Nat.not_le.mp hle, by rw [if_neg hle]⟩

/-- The best tree and the bug that is looked for are those of the other editor. -/
structure SameBest (e e' : Editor) : Prop where
  target : e'.target = e.target
  best : e'.best = e.best

theorem SameSearch.sameBest {e e' : Editor} (h : e.SameSearch e') : e.SameBest e' := by
  obtain ⟨cursor, seen, rfl⟩ := h
  exact ⟨rfl, rfl⟩

theorem SameBest.trans {e e' e'' : Editor} (h : e.SameBest e') (h' : e'.SameBest e'') :
    e.SameBest e'' :=
  ⟨h'.target.trans h.target, h'.best.trans h.best⟩

/-- What has been found out is the same, under the same settings and policy. -/
structure SameResults (e e' : Editor) : Prop extends SameBest e e' where
  settings : e'.settings = e.settings
  policy : e'.policy = e.policy
  trials : e'.trials = e.trials
  confirmations : e'.confirmations = e.confirmations

/-- To go on to a candidate changes nothing that has been found out. -/
theorem sameResults_nextCandidate (e : Editor) : e.SameResults e.nextCandidate := by
  rcases e.nextCandidate_cases with ⟨range, rest, -, heq⟩ | ⟨-, -, heq⟩ | ⟨-, -, heq⟩ <;>
    exact heq ▸ ⟨⟨rfl, rfl⟩, rfl, rfl, rfl, rfl⟩

theorem sameResults_enter (e : Editor) (next : Stage) : e.SameResults (e.enter next) := by
  cases next with
  | edits =>
      have h := sameResults_nextCandidate { e with
        candidates := (e.best.map (countDroppable e.settings)).getD 0
        untried := layOut e.settings.layout ((e.best.map (countDroppable e.settings)).getD 0) }
      exact ⟨⟨h.target, h.best⟩, h.settings, h.policy, h.trials, h.confirmations⟩
  | search => exact ⟨⟨rfl, rfl⟩, rfl, rfl, rfl, rfl⟩

/-! ## Between two runs -/

/-- What holds of a started editor between two runs: only a candidate has confirmations, fewer than
it needs, and the window of a search holds more than one cutoff. -/
structure Orderly (e : Editor) : Prop where
  started : e.phase ≠ .initial
  unconfirmed : e.confirmations < Nat.max e.settings.replays 1
  rested : (∀ range, e.phase ≠ .edit range) → e.confirmations = 0
  window : ∀ left right, e.phase = .search left right → left < right

theorem Orderly.frame {e e' : Editor} (hsame : e.SameSearch e') (h : e.Orderly) : e'.Orderly := by
  obtain ⟨cursor, seen, rfl⟩ := hsame
  exact ⟨h.started, h.unconfirmed, h.rested, h.window⟩

/-- An editor without confirmations is orderly if its phase is. -/
theorem orderly_of_rested {e : Editor} (hstarted : e.phase ≠ .initial) (h : e.confirmations = 0)
    (hwindow : ∀ left right, e.phase = .search left right → left < right) : e.Orderly where
  started := hstarted
  unconfirmed := h ▸ Nat.le_max_right e.settings.replays 1
  rested := fun _ => h
  window := hwindow

theorem orderly_nextCandidate {e : Editor} (h : e.confirmations = 0) : e.nextCandidate.Orderly := by
  rcases e.nextCandidate_cases with ⟨range, rest, -, heq⟩ | ⟨-, -, heq⟩ | ⟨-, -, heq⟩ <;>
    rw [heq] <;> exact orderly_of_rested nofun h nofun

theorem orderly_continueSearch {e : Editor} (h : e.confirmations = 0) (left right : Nat) :
    (e.continueSearch left right).Orderly := by
  rcases e.continueSearch_cases left right with ⟨-, heq⟩ | ⟨hlt, heq⟩ <;> rw [heq]
  · exact orderly_of_rested nofun h nofun
  · refine orderly_of_rested nofun h fun l r hphase => ?_
    obtain ⟨rfl, rfl⟩ := Phase.search.inj hphase
    exact hlt

theorem orderly_enter {e : Editor} (h : e.confirmations = 0) (next : Stage) :
    (e.enter next).Orderly := by
  cases next with
  | edits => exact orderly_nextCandidate h
  | search => exact orderly_continueSearch h _ _

theorem Orderly.endRun {e : Editor} (h : e.Orderly) (bug : Option BugKind) (tree : EventTree) :
    (e.endRun bug tree).2.Orderly := by
  have hending := e.ending_endRun bug tree
  generalize (e.endRun bug tree).1 = result, (e.endRun bug tree).2 = e' at hending ⊢
  have hcounted : e.counted.Orderly := ⟨h.started, h.unconfirmed, h.rested, h.window⟩
  -- outside the edits there are no confirmations to be forgotten
  have hrested : ∀ {phase}, e.phase = phase → (∀ range, phase ≠ .edit range) →
      e.confirmations = 0 := fun heq hne => h.rested fun range => heq ▸ hne range
  cases hending with
  | unstarted | scheduleRejected | treeRejected | finished => exact hcounted
  | scheduleReplayed hphase => exact orderly_of_rested nofun (hrested hphase nofun) nofun
  | treeReplayed next hphase =>
      refine orderly_enter ?_ next
      exact hrested hphase nofun
  | repeated range hphase _ hlt =>
      exact ⟨h.started, hlt, fun hne => absurd hphase (hne range), h.window⟩
  | confirmed | refuted => exact orderly_nextCandidate rfl
  | lowered left right hphase | raised left right hphase =>
      refine orderly_continueSearch ?_ _ _
      exact hrested hphase nofun

theorem orderly_afterAll {start : Editor} (hstart : Started start) (calls : List Call) :
    (start.afterAll calls).Orderly := by
  refine afterAll_induction_endRun (fun _ _ hsame h => h.frame hsame)
    (fun _ bug tree h => h.endRun bug tree) ?_ calls
  cases hstart <;> exact orderly_of_rested nofun rfl nofun

/-! ## The best tree of an editor -/

/-- A run changes the best tree only if it has found the bug that is looked for. -/
theorem best_endRun (e : Editor) (bug : Option BugKind) (tree : EventTree) :
    e.SameBest (e.endRun bug tree).2 ∨
      e.reproduces bug = true ∧ (e.accept bug tree).SameBest (e.endRun bug tree).2 := by
  have hending := e.ending_endRun bug tree
  generalize (e.endRun bug tree).1 = result, (e.endRun bug tree).2 = e' at hending ⊢
  cases hending with
  | unstarted => exact .inl ⟨rfl, rfl⟩
  | scheduleRejected => exact .inl ⟨rfl, rfl⟩
  | scheduleReplayed _ hrep => exact .inr ⟨hrep, rfl, rfl⟩
  | treeRejected => exact .inl ⟨rfl, rfl⟩
  | treeReplayed next _ hrep =>
      have h := sameResults_enter (e.counted.accept bug tree) next
      exact .inr ⟨hrep, h.target, h.best⟩
  | repeated => exact .inl ⟨rfl, rfl⟩
  | confirmed range _ hrep =>
      have h := sameResults_nextCandidate ((e.counted.settle ⟨range, true⟩).accept bug tree)
      exact .inr ⟨hrep, h.target, h.best⟩
  | refuted range =>
      have h := sameResults_nextCandidate
        { e.counted.settle ⟨range, false⟩ with untried := range.halves ++ e.untried }
      exact .inl ⟨h.target, h.best⟩
  | lowered => exact .inl ⟨rfl, rfl⟩
  | raised => exact .inl ⟨rfl, rfl⟩
  | finished => exact .inl ⟨rfl, rfl⟩

/-- The bug that is looked for once a run has been accepted is that of the run. -/
theorem target_accept {e : Editor} {bug : Option BugKind} (h : e.reproduces bug = true)
    (tree : EventTree) : (e.accept bug tree).target = bug ∧ bug ≠ none := by
  unfold reproduces at h
  unfold accept
  cases htarget : e.target with
  | none =>
      cases bug with
      | none => simp at h
      | some kind => exact ⟨rfl, Option.some_ne_none kind⟩
  | some target =>
      cases bug with
      | none => simp at h
      | some kind =>
          simp only [htarget, decide_eq_true_eq] at h
          rw [h]
          exact ⟨rfl, Option.some_ne_none kind⟩

end Editor

end Interleave.Minimization
