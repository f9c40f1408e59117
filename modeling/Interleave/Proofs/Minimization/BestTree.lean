import Interleave.Proofs.Minimization.EditSearch
import Interleave.Proofs.Minimization.Verdicts

/-!
# The soundness of the best tree

The runs of a minimization are judged one after the other. `Editor.endedRuns` lists those that are
over, and `Confirms` says of such a list that its last runs have all tried one range and have all
found one bug. The editor itself keeps nothing of a candidate's runs but their number. That this
number is enough is the invariant `Editor.Accounted`: the last runs of the list are those of the
current candidate, no run before them was, because no range is tried twice, and they have all found
the bug that is looked for. So a range is accepted exactly when its runs confirm it, and the best
tree, once a run has been accepted, is that of a run that found the bug.
-/

namespace Interleave.Minimization

/-- A run that is over: the phase it was for, the bug it found and its tree. -/
structure EndedRun where
  phase : Phase
  bug : Option BugKind
  tree : EventTree
  deriving DecidableEq

/-- The last `k` runs were all for the range, and all of them found the bug. -/
def Confirms (k : Nat) (range : Range) (kind : BugKind) (runs : List EndedRun) : Prop :=
  ∃ earlier latest, runs = earlier ++ latest ∧ latest.length = k ∧
    ∀ run ∈ latest, run.phase = .edit range ∧ run.bug = some kind

section Confirms

variable {k : Nat} {range : Range} {kind : BugKind} {runs : List EndedRun} {run : EndedRun}

/-- The last one of the runs that confirm a range. -/
theorem Confirms.last (h : Confirms k range kind (runs ++ [run])) (hk : 0 < k) :
    run.phase = .edit range ∧ run.bug = some kind := by
  obtain ⟨earlier, latest, heq, rfl, hlatest⟩ := h
  obtain rfl | ⟨init, last, rfl⟩ := latest.eq_nil_or_concat
  · exact absurd hk (Nat.lt_irrefl 0)
  · rw [List.concat_eq_append] at heq hlatest
    rw [← List.append_assoc] at heq
    obtain rfl : run = last := List.singleton_inj.mp (List.append_inj_right' heq rfl)
    exact hlatest run (by simp)

theorem Confirms.le_countP (h : Confirms k range kind runs) :
    k ≤ runs.countP fun run => run.phase = .edit range := by
  obtain ⟨earlier, latest, rfl, rfl, hlatest⟩ := h
  have hall : latest.countP (fun run => run.phase = .edit range) = latest.length :=
    List.countP_eq_length.mpr fun run hrun => decide_eq_true (hlatest run hrun).1
  rw [List.countP_append, hall]
  exact Nat.le_add_left _ _

end Confirms

namespace Editor

/-- The run that a call ends. -/
def endedBy (e : Editor) : Call → List EndedRun
  | .endRun bug tree => [⟨e.phase, bug, tree⟩]
  | _ => []

/-- The runs that a sequence of calls ends, in order. -/
def endedRuns (e : Editor) : List Call → List EndedRun
  | [] => []
  | c :: calls => e.endedBy c ++ (e.after c).endedRuns calls

theorem endedBy_of_not_endRun (e : Editor) {c : Call} (h : ∀ bug tree, c ≠ .endRun bug tree) :
    e.endedBy c = [] := by
  cases c with
  | endRun bug tree => exact absurd rfl (h bug tree)
  | beginRun => rfl
  | nextOperation choices => rfl
  | nextBoolean => rfl
  | nextInteger max => rfl
  | onSend event => rfl

theorem endedRuns_append (e : Editor) (xs ys : List Call) :
    e.endedRuns (xs ++ ys) = e.endedRuns xs ++ (e.afterAll xs).endedRuns ys := by
  induction xs generalizing e with
  | nil => rfl
  | cons c xs ih => simp only [List.cons_append, endedRuns, ih, afterAll_cons, List.append_assoc]

/-- A relation between the runs that are over and the search, kept by every end of a run, holds
after every sequence of calls. -/
theorem endedRuns_induction {P : List EndedRun → Editor → Prop}
    (frame : ∀ runs e e', e.SameSearch e' → P runs e → P runs e')
    (step : ∀ runs e bug tree, P runs e → P (runs ++ [⟨e.phase, bug, tree⟩]) (e.endRun bug tree).2)
    {runs : List EndedRun} {e : Editor} (h : P runs e) (calls : List Call) :
    P (runs ++ e.endedRuns calls) (e.afterAll calls) := by
  induction calls generalizing runs e with
  | nil => rwa [endedRuns, List.append_nil]
  | cons c calls ih =>
      rw [endedRuns, ← List.append_assoc, afterAll_cons]
      refine ih ?_
      by_cases hc : ∃ bug tree, c = .endRun bug tree
      · obtain ⟨bug, tree, rfl⟩ := hc
        exact step runs e bug tree h
      · have hne : ∀ bug tree, c ≠ .endRun bug tree := fun bug tree heq => hc ⟨bug, tree, heq⟩
        rw [endedBy_of_not_endRun e hne, List.append_nil]
        exact frame runs e _ (after_of_not_endRun e hne) h

/-! ## Replays -/

/-- The phases that replay what has been accepted or is to be reproduced. -/
inductive Replaying : Phase → Prop where
  | scheduleReplay : Replaying .scheduleReplay
  | treeReplay (next : Stage) : Replaying (.treeReplay next)

theorem BeforeEdits.replaying {phase : Phase} (h : BeforeEdits phase) : Replaying phase := by
  cases h with
  | scheduleReplay => exact .scheduleReplay
  | treeReplay => exact .treeReplay .edits

/-- An accepted run has found the bug that is looked for from then on, and its tree is the best. -/
theorem SameBest.of_accept {e e' : Editor} {bug : Option BugKind} {tree : EventTree}
    (h : (e.accept bug tree).SameBest e') (hrep : e.reproduces bug = true) :
    e'.target = bug ∧ e'.target ≠ none ∧ e'.best = some tree := by
  obtain ⟨htarget, hne⟩ := target_accept hrep tree
  have heq := h.target.trans htarget
  exact ⟨heq, heq ▸ hne, h.best⟩

/-- A replay that does not reproduce the bug leaves everything where it is. -/
theorem endRun_of_replaying_of_failed {e : Editor} (h : Replaying e.phase) {bug : Option BugKind}
    (hrep : e.reproduces bug = false) (tree : EventTree) : (e.endRun bug tree).2 = e.counted := by
  generalize hphase : e.phase = phase at h
  cases h <;> simp [endRun, hphase, hrep, counted]

/-- A replay that reproduces the bug is accepted. -/
theorem endRun_of_replaying_of_reproduced {e : Editor} (h : Replaying e.phase)
    {bug : Option BugKind} (hrep : e.reproduces bug = true) (tree : EventTree) :
    (e.endRun bug tree).1 = .ok () ∧ (e.accept bug tree).SameBest (e.endRun bug tree).2 := by
  generalize hphase : e.phase = phase at h
  cases h with
  | scheduleReplay =>
      simp only [endRun, hphase, hrep, if_true]
      exact ⟨trivial, rfl, rfl⟩
  | treeReplay next =>
      simp only [endRun, hphase, hrep, if_true]
      have hbest := sameResults_enter (e.counted.accept bug tree) next
      rw [← hphase]
      exact ⟨trivial, hbest.target, hbest.best⟩

/-! ## The trials of an editor -/

/-- The edits have not begun and there are no trials, or they are those of some tree. -/
def Begun (e : Editor) : Prop :=
  BeforeEdits e.phase ∧ e.trials = [] ∨ ∃ layout n, Edits layout n e

theorem Begun.frame {e e' : Editor} (hsame : e.SameSearch e') (h : e.Begun) : e'.Begun := by
  obtain ⟨cursor, seen, rfl⟩ := hsame
  exact h.imp_right fun ⟨layout, n, hedits⟩ => ⟨layout, n, hedits.settling, hedits.phase⟩

theorem Begun.endRun {e : Editor} (h : e.Begun) (bug : Option BugKind) (tree : EventTree) :
    (e.endRun bug tree).2.Begun := by
  obtain ⟨hbefore, htrials⟩ | ⟨layout, n, hedits⟩ := h
  · generalize hphase : e.phase = phase at hbefore
    cases hrep : e.reproduces bug with
    | false =>
        -- a replay that fails leaves everything where it is
        rw [endRun_of_replaying_of_failed (hphase ▸ hbefore.replaying) hrep]
        exact .inl ⟨hphase ▸ hbefore, htrials⟩
    | true =>
        cases hbefore with
        | scheduleReplay =>
            simp only [Editor.endRun, hphase, hrep, if_true]
            exact .inl ⟨.treeReplay, htrials⟩
        | treeReplay => exact .inr ⟨_, _, edits_endRun_treeReplay tree hphase hrep htrials⟩
  · exact .inr ⟨layout, n, hedits.endRun bug tree⟩

/-- No range is tried again. -/
theorem Begun.fresh {e : Editor} (h : e.Begun) {range : Range} (hphase : e.phase = .edit range) :
    ∀ t ∈ e.trials, t.range ≠ range := by
  obtain ⟨hbefore, -⟩ | ⟨layout, n, hedits⟩ := h
  · rw [hphase] at hbefore
    cases hbefore
  · rintro t ht rfl
    have hpending : t.range ∈ e.pending := by simp [pending, hphase]
    have hle := (hedits.settling.trials_within t ht).2.1
    -- a range is not apart from itself, and no proper part of itself
    obtain hapart | ⟨-, -, -, hne⟩ := hedits.settling.pending_preceded t ht t.range hpending
    · unfold Range.Apart at hapart
      omega
    · exact hne rfl

theorem Started.beforeEdits {start : Editor} (h : Started start) : BeforeEdits start.phase := by
  cases h with
  | schedule => exact .scheduleReplay
  | tree => exact .treeReplay

theorem begun_of_started {start : Editor} (hstart : Started start) : start.Begun :=
  .inl ⟨hstart.beforeEdits, by cases hstart <;> rfl⟩

/-! ## Trials of candidates -/

theorem reproduces_iff {e : Editor} {bug : Option BugKind} :
    e.reproduces bug = true ↔
      ∃ kind, bug = some kind ∧ (e.target = none ∨ e.target = some kind) := by
  unfold reproduces
  cases bug with
  | none => cases e.target <;> simp
  | some kind => cases e.target <;> simp

/-- Only the runs of candidates are trials. -/
theorem endRun_of_not_edit {e : Editor} (h : ∀ range, e.phase ≠ .edit range)
    (bug : Option BugKind) (tree : EventTree) :
    (e.endRun bug tree).2.trials = e.trials ∧
      (e.endRun bug tree).2.confirmations = e.confirmations := by
  have hending := e.ending_endRun bug tree
  generalize (e.endRun bug tree).1 = result, (e.endRun bug tree).2 = e' at hending ⊢
  cases hending with
  | unstarted | scheduleRejected | scheduleReplayed | treeRejected | lowered | raised | finished =>
      exact ⟨rfl, rfl⟩
  | treeReplayed next =>
      have hsame := sameResults_enter (e.counted.accept bug tree) next
      exact ⟨hsame.trials, hsame.confirmations⟩
  | repeated range hphase | confirmed range hphase | refuted range hphase =>
      exact absurd hphase (h range)

/-- What a run for a candidate does: it is one reproduction of several, or the last one that is
needed, or one failure. -/
inductive TrialStep (e : Editor) (range : Range) (bug : Option BugKind) (tree : EventTree)
    (e' : Editor) : Prop where
  | repeated : e.reproduces bug = true → e.confirmations + 1 < Nat.max e.settings.replays 1 →
      e'.phase = .edit range → e'.confirmations = e.confirmations + 1 → e'.trials = e.trials →
      e.SameBest e' → TrialStep e range bug tree e'
  | confirmed : e.reproduces bug = true → Nat.max e.settings.replays 1 ≤ e.confirmations + 1 →
      e'.confirmations = 0 → e'.trials = e.trials ++ [⟨range, true⟩] →
      (e.accept bug tree).SameBest e' → TrialStep e range bug tree e'
  | refuted : e.reproduces bug = false → e'.confirmations = 0 →
      e'.trials = e.trials ++ [⟨range, false⟩] → e.SameBest e' → TrialStep e range bug tree e'

theorem trialStep_endRun {e : Editor} {range : Range} (h : e.phase = .edit range)
    (bug : Option BugKind) (tree : EventTree) :
    TrialStep e range bug tree (e.endRun bug tree).2 := by
  have hending := e.ending_endRun bug tree
  generalize (e.endRun bug tree).1 = result, (e.endRun bug tree).2 = e' at hending ⊢
  cases hending with
  | repeated r hphase hrep hlt => exact .repeated hrep hlt h rfl rfl ⟨rfl, rfl⟩
  | confirmed r hphase hrep hge =>
      obtain rfl : r = range := Phase.edit.inj (hphase.symm.trans h)
      have hsame := sameResults_nextCandidate ((e.counted.settle ⟨r, true⟩).accept bug tree)
      exact .confirmed hrep hge hsame.confirmations hsame.trials ⟨hsame.target, hsame.best⟩
  | refuted r hphase hrep =>
      obtain rfl : r = range := Phase.edit.inj (hphase.symm.trans h)
      have hsame := sameResults_nextCandidate
        { e.counted.settle ⟨r, false⟩ with untried := r.halves ++ e.untried }
      exact .refuted hrep hsame.confirmations hsame.trials ⟨hsame.target, hsame.best⟩
  | unstarted hphase | scheduleRejected hphase | scheduleReplayed hphase =>
      exact Phase.noConfusion (h.symm.trans hphase)
  | treeRejected _ hphase | treeReplayed _ hphase | finished _ hphase =>
      exact Phase.noConfusion (h.symm.trans hphase)
  | lowered _ _ hphase | raised _ _ hphase => exact Phase.noConfusion (h.symm.trans hphase)

/-- A range is recorded as reproduced by the last reproduction that it needs. -/
theorem accepted_of_trials {e : Editor} {bug : Option BugKind} {tree : EventTree} {range : Range}
    (h : (e.endRun bug tree).2.trials = e.trials ++ [⟨range, true⟩]) :
    e.phase = .edit range ∧ e.reproduces bug = true ∧
      Nat.max e.settings.replays 1 ≤ e.confirmations + 1 ∧
      (e.accept bug tree).SameBest (e.endRun bug tree).2 := by
  by_cases hedit : ∃ r, e.phase = .edit r
  · obtain ⟨r, hr⟩ := hedit
    cases trialStep_endRun hr bug tree with
    | repeated _ _ _ _ htrials => simp [htrials] at h
    | confirmed hrep hge _ htrials hsame =>
        obtain rfl : r = range := by simpa [htrials] using h
        exact ⟨hr, hrep, hge, hsame⟩
    | refuted _ _ htrials => simp [htrials] at h
  · have htrials := (endRun_of_not_edit (fun r hr => hedit ⟨r, hr⟩) bug tree).1
    simp [htrials] at h

/-! ## The runs of the current candidate -/

/-- The editor is accounted for by the runs that are over. -/
structure Accounted (e : Editor) (runs : List EndedRun) : Prop where
  begun : e.Begun
  orderly : e.Orderly
  untargeted : e.target = none → BeforeEdits e.phase
  shown : ∀ kind, e.target = some kind → ∃ run ∈ runs, run.bug = some kind ∧ e.best = some run.tree
  tried : ∀ run ∈ runs, ∀ range, run.phase = .edit range →
    e.phase = .edit range ∨ ∃ t ∈ e.trials, t.range = range
  /-- The last runs are those of the current candidate, as many as it has confirmations. -/
  streak : ∀ range, e.phase = .edit range → ∃ earlier latest, runs = earlier ++ latest ∧
    latest.length = e.confirmations ∧
    (∀ run ∈ latest, run.phase = .edit range ∧ run.bug = e.target) ∧
    ∀ run ∈ earlier, run.phase ≠ .edit range

/-- Where all runs for candidates are settled, those of the current candidate are still to come. -/
theorem accounted_of_settled {runs : List EndedRun} {e : Editor} (begun : e.Begun)
    (orderly : e.Orderly) (untargeted : e.target = none → BeforeEdits e.phase)
    (shown : ∀ kind, e.target = some kind →
      ∃ run ∈ runs, run.bug = some kind ∧ e.best = some run.tree)
    (settled : ∀ run ∈ runs, ∀ range, run.phase = .edit range → ∃ t ∈ e.trials, t.range = range)
    (rested : e.confirmations = 0) : e.Accounted runs where
  begun := begun
  orderly := orderly
  untargeted := untargeted
  shown := shown
  tried := fun run hrun range hphase => .inr (settled run hrun range hphase)
  streak := by
    intro range hphase
    refine ⟨runs, [], (List.append_nil runs).symm, rested.symm, List.forall_mem_nil _,
      fun run hrun hrange => ?_⟩
    obtain ⟨t, ht, heq⟩ := settled run hrun range hrange
    exact begun.fresh hphase t ht heq

theorem Accounted.frame {runs : List EndedRun} {e e' : Editor} (hsame : e.SameSearch e')
    (h : e.Accounted runs) : e'.Accounted runs where
  begun := h.begun.frame hsame
  orderly := h.orderly.frame hsame
  untargeted := by
    obtain ⟨cursor, seen, rfl⟩ := hsame
    exact h.untargeted
  shown := by
    obtain ⟨cursor, seen, rfl⟩ := hsame
    exact h.shown
  tried := by
    obtain ⟨cursor, seen, rfl⟩ := hsame
    exact h.tried
  streak := by
    obtain ⟨cursor, seen, rfl⟩ := hsame
    exact h.streak

section EndRun

variable {runs : List EndedRun} {e : Editor} (h : e.Accounted runs) (bug : Option BugKind)
  (tree : EventTree)

include h

theorem Accounted.shown_endRun (kind : BugKind)
    (htarget : (e.endRun bug tree).2.target = some kind) :
    ∃ run ∈ runs ++ [⟨e.phase, bug, tree⟩], run.bug = some kind ∧
      (e.endRun bug tree).2.best = some run.tree := by
  obtain hsame | ⟨hrep, hsame⟩ := e.best_endRun bug tree
  · rw [hsame.target] at htarget
    obtain ⟨run, hrun, hbug, hbest⟩ := h.shown kind htarget
    exact ⟨run, List.mem_append_left _ hrun, hbug, hsame.best.trans hbest⟩
  · obtain ⟨hbug, -, hbest⟩ := hsame.of_accept hrep
    exact ⟨⟨e.phase, bug, tree⟩, by simp, hbug.symm.trans htarget, hbest⟩

theorem Accounted.untargeted_endRun (htarget : (e.endRun bug tree).2.target = none) :
    BeforeEdits (e.endRun bug tree).2.phase := by
  obtain hsame | ⟨hrep, hsame⟩ := e.best_endRun bug tree
  · have hbefore := h.untargeted (hsame.target.symm.trans htarget)
    cases hrep : e.reproduces bug with
    | false => rwa [endRun_of_replaying_of_failed hbefore.replaying hrep]
    | true =>
        have hsame' := (endRun_of_replaying_of_reproduced hbefore.replaying hrep tree).2
        exact absurd htarget (hsame'.of_accept hrep).2.1
  · exact absurd htarget (hsame.of_accept hrep).2.1

/-- A run for a candidate takes the other candidates' runs as they are. -/
theorem Accounted.settled_of_edit {range : Range} (hphase : e.phase = .edit range) {e' : Editor}
    {reproduced : Bool} (htrials : e'.trials = e.trials ++ [⟨range, reproduced⟩]) :
    ∀ run ∈ runs ++ [EndedRun.mk e.phase bug tree], ∀ r, run.phase = .edit r →
      ∃ t ∈ e'.trials, t.range = r := by
  -- a run is for the current candidate, which is settled now, or for one that has been settled
  have hnow : ∀ r, e.phase = .edit r → ∃ t ∈ e'.trials, t.range = r := by
    intro r hr
    obtain rfl : range = r := Phase.edit.inj (hphase.symm.trans hr)
    exact ⟨⟨range, reproduced⟩, by simp [htrials], rfl⟩
  intro run hrun r hr
  obtain hrun | hrun := List.mem_append.mp hrun
  · obtain hcurrent | ⟨t, ht, heq⟩ := h.tried run hrun r hr
    · exact hnow r hcurrent
    · exact ⟨t, htrials ▸ List.mem_append_left _ ht, heq⟩
  · obtain rfl := List.mem_singleton.mp hrun
    exact hnow r hr

/-- While candidates are tried, a run reproduces the bug if it finds the one that is looked for. -/
theorem Accounted.reproduces_iff_of_edit {range : Range} (hphase : e.phase = .edit range) :
    e.reproduces bug = true ↔ bug = e.target := by
  have hne : e.target ≠ none := by
    intro hnone
    have hbefore := h.untargeted hnone
    rw [hphase] at hbefore
    cases hbefore
  obtain ⟨kind, hkind⟩ := Option.ne_none_iff_exists'.mp hne
  rw [reproduces_iff]
  constructor
  · rintro ⟨found, rfl, hnone | hfound⟩
    · exact absurd hnone hne
    · exact hfound.symm
  · rintro rfl
    exact ⟨kind, hkind, .inr hkind⟩

/-- One more reproduction lengthens the row of the current candidate's runs. -/
theorem Accounted.repeated {range : Range} (hphase : e.phase = .edit range)
    (hrep : e.reproduces bug = true) {e' : Editor} (hphase' : e'.phase = .edit range)
    (hconf : e'.confirmations = e.confirmations + 1) (hsame : e.SameBest e') :
    ∀ r, e'.phase = .edit r → ∃ earlier latest,
      runs ++ [⟨e.phase, bug, tree⟩] = earlier ++ latest ∧ latest.length = e'.confirmations ∧
      (∀ run ∈ latest, run.phase = .edit r ∧ run.bug = e'.target) ∧
      ∀ run ∈ earlier, run.phase ≠ .edit r := by
  intro r hr
  obtain rfl : range = r := Phase.edit.inj (hphase'.symm.trans hr)
  obtain ⟨earlier, latest, rfl, hlength, hlatest, hearlier⟩ := h.streak range hphase
  refine ⟨earlier, latest ++ [⟨e.phase, bug, tree⟩], List.append_assoc .., ?_, ?_, hearlier⟩
  · rw [List.length_append, hlength, hconf, List.length_singleton]
  · intro run hrun
    rw [hsame.target]
    obtain hrun | hrun := List.mem_append.mp hrun
    · exact hlatest run hrun
    · obtain rfl := List.mem_singleton.mp hrun
      exact ⟨hphase, (h.reproduces_iff_of_edit bug hphase).mp hrep⟩

theorem Accounted.endRun : (e.endRun bug tree).2.Accounted (runs ++ [⟨e.phase, bug, tree⟩]) := by
  have hbegun := h.begun.endRun bug tree
  have horderly := h.orderly.endRun bug tree
  have huntargeted := h.untargeted_endRun bug tree
  have hshown := h.shown_endRun bug tree
  by_cases hedit : ∃ range, e.phase = .edit range
  · obtain ⟨range, hphase⟩ := hedit
    cases trialStep_endRun hphase bug tree with
    | repeated hrep _ hphase' hconf htrials hsame =>
        -- the candidate stays open until it is reproduced as often as needed
        refine ⟨hbegun, horderly, huntargeted, hshown, fun run hrun r hr => ?_,
          h.repeated bug tree hphase hrep hphase' hconf hsame⟩
        have hkept : ∀ r, e.phase = .edit r → (e.endRun bug tree).2.phase = .edit r :=
          fun r hr => (hphase'.trans hphase.symm).trans hr
        rw [htrials]
        obtain hrun | hrun := List.mem_append.mp hrun
        · exact (h.tried run hrun r hr).imp_left (hkept r)
        · obtain rfl := List.mem_singleton.mp hrun
          exact .inl (hkept r hr)
    | confirmed _ _ hrested htrials =>
        exact accounted_of_settled hbegun horderly huntargeted hshown
          (h.settled_of_edit bug tree hphase htrials) hrested
    | refuted _ hrested htrials =>
        exact accounted_of_settled hbegun horderly huntargeted hshown
          (h.settled_of_edit bug tree hphase htrials) hrested
  · have hne : ∀ range, e.phase ≠ .edit range := fun range heq => hedit ⟨range, heq⟩
    obtain ⟨htrials, hconf⟩ := endRun_of_not_edit hne bug tree
    refine accounted_of_settled hbegun horderly huntargeted hshown ?_
      (hconf.trans (h.orderly.rested hne))
    intro run hrun range hrange
    rw [htrials]
    obtain hrun | hrun := List.mem_append.mp hrun
    · exact (h.tried run hrun range hrange).resolve_left (hne range)
    · obtain rfl := List.mem_singleton.mp hrun
      exact absurd hrange (hne range)

/-- The confirmations of the current candidate are all the runs that it has had. -/
theorem Accounted.countP_runs {range : Range} (hphase : e.phase = .edit range) :
    runs.countP (fun run => run.phase = .edit range) = e.confirmations := by
  obtain ⟨earlier, latest, rfl, hlength, hlatest, hearlier⟩ := h.streak range hphase
  have hnone : earlier.countP (fun run => run.phase = .edit range) = 0 :=
    List.countP_eq_zero.mpr fun run hrun => by simpa using hearlier run hrun
  have hall : latest.countP (fun run => run.phase = .edit range) = latest.length :=
    List.countP_eq_length.mpr fun run hrun => decide_eq_true (hlatest run hrun).1
  rw [List.countP_append, hnone, hall, hlength, Nat.zero_add]

/-- The last reproduction that is needed ends a row of as many runs as are needed. -/
theorem Accounted.confirms {range : Range} (hphase : e.phase = .edit range)
    (hrep : e.reproduces bug = true)
    (hge : Nat.max e.settings.replays 1 ≤ e.confirmations + 1) :
    ∃ kind, e.target = some kind ∧ Confirms (Nat.max e.settings.replays 1) range kind
      (runs ++ [⟨e.phase, bug, tree⟩]) := by
  obtain ⟨earlier, latest, rfl, hlength, hlatest, -⟩ := h.streak range hphase
  have hbug := (h.reproduces_iff_of_edit bug hphase).mp hrep
  obtain ⟨kind, hkind, -⟩ := reproduces_iff.mp hrep
  refine ⟨kind, hbug.symm.trans hkind, earlier, latest ++ [⟨e.phase, bug, tree⟩],
    List.append_assoc .., ?_, fun run hrun => ?_⟩
  · have := h.orderly.unconfirmed
    rw [List.length_append, hlength, List.length_singleton]
    omega
  · obtain hrun | hrun := List.mem_append.mp hrun
    · exact ⟨(hlatest run hrun).1, (hlatest run hrun).2.trans (hbug.symm.trans hkind)⟩
    · obtain rfl := List.mem_singleton.mp hrun
      exact ⟨hphase, hkind⟩

/-- A candidate is accepted exactly when its runs have confirmed it. -/
theorem Accounted.confirmed_iff (range : Range) :
    (e.endRun bug tree).2.trials = e.trials ++ [⟨range, true⟩] ↔
      ∃ kind, e.target = some kind ∧ Confirms (Nat.max e.settings.replays 1) range kind
        (runs ++ [⟨e.phase, bug, tree⟩]) := by
  constructor
  · intro htrials
    obtain ⟨hphase, hrep, hge, -⟩ := accepted_of_trials htrials
    exact h.confirms bug tree hphase hrep hge
  · rintro ⟨kind, htarget, hconfirms⟩
    have hpos : 0 < Nat.max e.settings.replays 1 := Nat.le_max_right e.settings.replays 1
    obtain ⟨hphase, hbug⟩ : e.phase = .edit range ∧ bug = some kind := hconfirms.last hpos
    have hfound : e.reproduces bug = true :=
      (h.reproduces_iff_of_edit bug hphase).mpr (hbug.trans htarget.symm)
    cases trialStep_endRun hphase bug tree with
    | repeated _ hlt =>
        -- there have not been as many runs for the candidate as it needs
        have hle := hconfirms.le_countP
        rw [List.countP_append, h.countP_runs hphase] at hle
        simp only [hphase, List.countP_singleton, decide_true, if_true] at hle
        omega
    | confirmed _ _ _ htrials => exact htrials
    | refuted hrep => exact Bool.noConfusion (hfound.symm.trans hrep)

end EndRun

theorem accounted_afterAll {start : Editor} (hstart : Started start) (calls : List Call) :
    (start.afterAll calls).Accounted (start.endedRuns calls) := by
  have hnone : start.Accounted [] := by
    have htarget : start.target = none := by cases hstart <;> rfl
    refine accounted_of_settled (begun_of_started hstart) (orderly_afterAll hstart [])
      (fun _ => hstart.beforeEdits) (fun kind hkind => ?_) (List.forall_mem_nil _) ?_
    · exact absurd (htarget.symm.trans hkind) nofun
    · cases hstart <;> rfl
  exact endedRuns_induction (P := fun runs e => e.Accounted runs)
    (fun _ _ _ hsame h => h.frame hsame) (fun _ _ bug tree h => h.endRun bug tree) hnone calls

/-! ## The best tree -/

theorem sameBest_endRun_of_search {e : Editor} {left right : Nat} (h : e.phase = .search left right)
    (bug : Option BugKind) (tree : EventTree) : e.SameBest (e.endRun bug tree).2 := by
  simp only [endRun, h]
  split <;> exact ⟨rfl, rfl⟩

/-- Only a replay and the last reproduction of a candidate replace the best tree. -/
theorem sameBest_or_accepted (e : Editor) (bug : Option BugKind) (tree : EventTree) :
    e.SameBest (e.endRun bug tree).2 ∨ Replaying e.phase ∨
      ∃ range, (e.endRun bug tree).2.trials = e.trials ++ [⟨range, true⟩] := by
  cases hphase : e.phase with
  | initial | completed transition =>
      simp only [endRun, hphase]
      exact .inl ⟨rfl, rfl⟩
  | scheduleReplay => exact .inr (.inl .scheduleReplay)
  | treeReplay next => exact .inr (.inl (.treeReplay next))
  | search left right => exact .inl (sameBest_endRun_of_search hphase bug tree)
  | edit range =>
      cases trialStep_endRun hphase bug tree with
      | repeated _ _ _ _ _ hsame => exact .inl hsame
      | confirmed _ _ _ htrials => exact .inr (.inr ⟨range, htrials⟩)
      | refuted _ _ _ hsame => exact .inl hsame

theorem trials_endRun (e : Editor) (bug : Option BugKind) (tree : EventTree) :
    (e.endRun bug tree).2.trials = e.trials ∨
      ∃ t, (e.endRun bug tree).2.trials = e.trials ++ [t] := by
  by_cases hedit : ∃ range, e.phase = .edit range
  · obtain ⟨range, hphase⟩ := hedit
    cases trialStep_endRun hphase bug tree with
    | repeated _ _ _ _ htrials => exact .inl htrials
    | confirmed _ _ _ htrials => exact .inr ⟨_, htrials⟩
    | refuted _ _ htrials => exact .inr ⟨_, htrials⟩
  · exact .inl (endRun_of_not_edit (fun range hphase => hedit ⟨range, hphase⟩) bug tree).1

/-- After any sequence of calls a run ends. The bug that is looked for is none at the start, is that
of the first run accepted and stays; from then on the best tree is that of a run that found it. A
replay is accepted if it finds it. A range is recorded as reproduced exactly when the last `k` runs
were all for it and all found the bug, and the best tree becomes that of the last one of them; a
run for it that does not find the bug rejects it, however often it was confirmed. Such a run, a run
of the search and an error change neither the best tree nor the bug, and an error changes neither
the phase nor the candidates nor the trials. -/
theorem bestTree_shows_target {start : Editor} (hstart : Started start) (calls : List Call)
    (bug : Option BugKind) (tree : EventTree) :
    let e := start.afterAll calls
    let result := (e.endRun bug tree).1
    let e' := (e.endRun bug tree).2
    let runs := start.endedRuns (calls ++ [.endRun bug tree])
    let k := max 1 start.settings.replays
    start.target = none ∧
      (∀ kind, e.target = some kind → e'.target = some kind) ∧
      (∀ kind, e'.target = some kind →
        ∃ run ∈ runs, run.bug = some kind ∧ e'.best = some run.tree) ∧
      (e.SameBest e' ∨ bug ≠ none ∧ e'.target = bug ∧ e'.best = some tree ∧
        (Replaying e.phase ∨ ∃ range, e'.trials = e.trials ++ [⟨range, true⟩])) ∧
      (Replaying e.phase → ∀ kind, bug = some kind → (e.target = none ∨ e.target = some kind) →
        result = .ok () ∧ e'.target = bug ∧ e'.best = some tree) ∧
      (e'.trials = e.trials ∨ ∃ t, e'.trials = e.trials ++ [t]) ∧
      (∀ range, e'.trials = e.trials ++ [⟨range, true⟩] ↔
        ∃ kind, e.target = some kind ∧ Confirms k range kind runs) ∧
      (∀ range, e'.trials = e.trials ++ [⟨range, true⟩] → e'.target = bug ∧ e'.best = some tree) ∧
      (∀ range, e.phase = .edit range → bug ≠ e.target →
        result = .ok () ∧ e'.trials = e.trials ++ [⟨range, false⟩] ∧ e.SameBest e') ∧
      (∀ left right, e.phase = .search left right → e.SameBest e') ∧
      (∀ error, result = .error error → e.SameBest e' ∧ e'.phase = e.phase ∧
        e'.untried = e.untried ∧ e'.trials = e.trials) := by
  intro e result e' runs k
  have hacc : e.Accounted (start.endedRuns calls) := accounted_afterAll hstart calls
  have hruns : runs = start.endedRuns calls ++ [⟨e.phase, bug, tree⟩] :=
    endedRuns_append start calls [.endRun bug tree]
  have hk : k = Nat.max e.settings.replays 1 := by
    rw [settings_afterAll start calls]
    exact Nat.max_comm ..
  have hbest := e.best_endRun bug tree
  rw [hruns, hk]
  refine ⟨?_, fun kind hkind => ?_, hacc.shown_endRun bug tree, ?_,
    fun hphase kind hkind htarget => ?_, e.trials_endRun bug tree, hacc.confirmed_iff bug tree,
    fun range htrials => ?_, fun range hphase hbug => ?_,
    fun left right hphase => sameBest_endRun_of_search hphase bug tree, fun error herror => ?_⟩
  · cases hstart <;> rfl
  · obtain hsame | ⟨hrep, hsame⟩ := hbest
    · exact hsame.target.trans hkind
    · rw [hsame.target, accept, hkind, Option.some_or]
  · obtain hsame | ⟨hrep, hsame⟩ := hbest
    · exact .inl hsame
    · obtain ⟨htarget, hne, htree⟩ := hsame.of_accept hrep
      exact (e.sameBest_or_accepted bug tree).imp_right
        fun haccepted => ⟨htarget ▸ hne, htarget, htree, haccepted⟩
  · have hrep := reproduces_iff.mpr ⟨kind, hkind, htarget⟩
    obtain ⟨hok, hsame⟩ := endRun_of_replaying_of_reproduced hphase hrep tree
    obtain ⟨htarget', -, htree⟩ := hsame.of_accept hrep
    exact ⟨hok, htarget', htree⟩
  · obtain ⟨-, hrep, -, hsame⟩ := accepted_of_trials htrials
    obtain ⟨htarget, -, htree⟩ := hsame.of_accept hrep
    exact ⟨htarget, htree⟩
  · have hok : result = .ok () := by simp only [result, endRun, hphase]
    have hfound := mt (hacc.reproduces_iff_of_edit bug hphase).mp hbug
    cases trialStep_endRun hphase bug tree with
    | repeated hrep | confirmed hrep => exact absurd hrep hfound
    | refuted _ _ htrials hsame => exact ⟨hok, htrials, hsame⟩
  · rw [show e' = e.counted from endRun_of_error herror]
    exact ⟨⟨rfl, rfl⟩, rfl, rfl, rfl⟩

/-- Two sends of which each has to be reproduced twice. A run that finds nothing and one that finds
the bug of another monitor are errors in the replays; in the edits another monitor's bug rejects the
first send, which was confirmed once, and the second one is accepted with the tree of its last run.
-/
theorem bestTree_shows_target_of_two_monitors :
    let tick : Step :=
      { EventTree.rootStep with kind := .send, event := some { name := "Tick" } }
    let tree : EventTree := { EventTree.root with steps := #[EventTree.rootStep, tick, tick] }
    let left : BugKind := .liveness "Left"
    let right : BugKind := .liveness "Right"
    let start := (new { droppable := ["Tick"], replays := 2 } .always).startFromSchedule
    let calls : List Call := [.endRun none tree, .endRun left tree, .endRun right tree,
      .endRun left tree, .beginRun, .endRun left tree, .endRun right tree, .endRun left tree]
    Started start ∧ (start.afterAll calls).trials = [⟨⟨1, 1⟩, false⟩] ∧
      (start.afterAll calls).best = some tree ∧
      ((start.afterAll calls).endRun left .root).2.trials =
        [⟨⟨1, 1⟩, false⟩, ⟨⟨2, 2⟩, true⟩] ∧
      ((start.afterAll calls).endRun left .root).2.target = some left ∧
      ((start.afterAll calls).endRun left .root).2.best = some .root ∧
      Confirms 2 ⟨2, 2⟩ left (start.endedRuns (calls ++ [.endRun left .root])) := by
  intro tick tree left right start calls
  have hstart : Started start := .schedule _ _
  obtain ⟨-, -, -, -, -, -, hconfirmed, haccepted, -, -, -⟩ :=
    bestTree_shows_target hstart calls (some left) .root
  have htrials : ((start.afterAll calls).endRun left .root).2.trials =
      (start.afterAll calls).trials ++ [⟨⟨2, 2⟩, true⟩] := by decide +kernel
  have htarget : (start.afterAll calls).target = some left := by decide +kernel
  obtain ⟨kind, hkind, hconfirms⟩ := (hconfirmed ⟨2, 2⟩).mp htrials
  obtain rfl : left = kind := Option.some.inj (htarget.symm.trans hkind)
  obtain ⟨htarget', hbest'⟩ := haccepted ⟨2, 2⟩ htrials
  exact ⟨hstart, by decide +kernel, by decide +kernel, by decide +kernel, htarget', hbest',
    hconfirms⟩

end Editor

end Interleave.Minimization
