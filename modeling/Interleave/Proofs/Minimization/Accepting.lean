import Interleave.Proofs.Minimization.Repeating
import Interleave.Proofs.Minimization.Verdicts

/-!
# Accepted trees

The runs of a minimization start with the sessions of `Program.Minimizes`: the first one, and behind
every run the one that has been prepared. Once a bug is looked for, the best tree is that of one of
these runs, which has found the bug (`Program.Shows`), and so the bug is found again whenever the
tree is retraced (`Program.Shows.again`).
-/

namespace Interleave

namespace Minimization

namespace Session

variable {τ : Type}

theorem plan_facts (s : Session τ) :
    s.plan.recorder = .empty ∧ s.plan.steps = 0 ∧ s.plan.maxSteps = s.maxSteps ∧
      s.plan.suffix = s.suffix ∧ s.editor.SameBest s.plan.editor := by
  rcases s.plan_cases with ⟨_, -, -, heq⟩ | ⟨-, heq⟩ <;> rw [heq] <;>
    exact ⟨rfl, rfl, rfl, rfl, rfl, rfl⟩

variable [Strategy τ]

theorem onEnd_facts {s s' : Session τ} {outcome : Outcome} {result : Except StrategyError Unit}
    (h : s.onEnd outcome = (result, s')) :
    s'.maxSteps = s.maxSteps ∧ s'.suffix.isSome = s.suffix.isSome ∧
      s'.editor = (s.editor.endRun (outcome.bug.map (·.kind))
        (s.recorder.recordEnd (outcome.bug.map (·.kind))).tree).2 := by
  unfold onEnd at h
  dsimp only at h
  split at h
  · obtain ⟨-, rfl⟩ := Prod.mk.inj h
    exact ⟨rfl, rfl, rfl⟩
  · rename_i hsuffix
    obtain ⟨-, rfl⟩ := Prod.mk.inj h
    exact ⟨rfl, rfl, rfl⟩
  · rename_i hsuffix
    obtain ⟨-, rfl⟩ := Prod.mk.inj h
    exact ⟨rfl, (congrArg Option.isSome hsuffix).symm, rfl⟩

end Session

end Minimization

open Minimization

variable {τ β : Type} [Strategy τ]

/-! ## The runs of a minimization -/

/-- A run of a minimization ends without an error and is taken into account. -/
structure Program.Accounts (p : Program β) (c : Configuration) (i : Nat) (s s' : Session τ) :
    Prop where
  ended : Machine.step? p (p.run (.new i c s)) = none
  error : (p.run (.new i c s)).scheduler.error = none
  closed : Strategy.onEnd (p.run (.new i c s)).scheduler.strategy
    (p.run (.new i c s)).scheduler.outcome = (.ok (), s')

/-- The sessions with which the runs of a minimization start. Behind every run the next one has been
prepared with success. An engine that is run again after it has stopped at a bug goes on without
that; such a run starts with the mode, the cursor and the counts of the one before, and is not among
these. -/
inductive Program.Minimizes (p : Program β) (c : Configuration) (first : Session τ) :
    Session τ → Prop
  | first : Minimizes p c first first
  | next {i : Nat} {s s' s'' : Session τ} (before : Minimizes p c first s)
      (run : p.Accounts c i s s') (prepared : Strategy.prepare s' = (.ok true, s'')) :
      Minimizes p c first s''

/-- The first session of a minimization. -/
inductive Minimization.Session.Begins (c : Configuration) : Session τ → Prop
  | schedule (schedule : Schedule) (header : Header) (settings : Settings) (policy : MatchPolicy)
      (suffix : Option τ) : Begins c (.ofSchedule schedule header c settings policy suffix)
  | tree (tree : EventTree) (header : Header) (settings : Settings) (policy : MatchPolicy)
      (suffix : Option τ) : Begins c (.ofTree tree header c settings policy suffix)

theorem eq_ok_of_isOk {ε α : Type} {result : Except ε Unit × α} (h : result.1.isOk = true) :
    result = (.ok (), result.2) := by
  obtain ⟨verdict, rest⟩ := result
  cases verdict with
  | ok => rfl
  | error e => cases h

/-! ## What the best tree shows -/

/-- The tree is that of a run of the minimization which has ended with a bug of the given kind. -/
def Program.Shows (p : Program β) (c : Configuration) (first : Session τ) (tree : EventTree)
    (kind : BugKind) : Prop :=
  ∃ (i : Nat) (s : Session τ), p.Minimizes c first s ∧
    Machine.step? p (p.run (.new i c s)) = none ∧
    (p.run (.new i c s)).scheduler.error = none ∧
    (p.run (.new i c s)).scheduler.bug.map (·.kind) = some kind ∧
    (p.run (.new i c s)).recordedTree = tree

/-- A session that starts a run of a minimization. -/
structure Program.Starts (p : Program β) (c : Configuration) (first s : Session τ) : Prop where
  recorder : s.recorder = .empty
  steps : s.steps = 0
  maxSteps : s.maxSteps = first.maxSteps
  shown : ∀ kind ∈ s.editor.target, ∀ tree ∈ s.editor.best, p.Shows c first tree kind

variable {p : Program β} {c c' : Configuration} {first s s' : Session τ} {i : Nat}

theorem Program.starts_first (h : first.Begins c') : p.Starts c first first := by
  -- a new editor has no bug to look for, so that nothing is to be shown
  have hnone : ∀ (editor : Editor) (schedule : Option Schedule) (header : Header) (length : Nat)
      (suffix : Option τ), editor.target = none →
        p.Starts c (.ofEditor editor schedule header c' length suffix)
          (.ofEditor editor schedule header c' length suffix) := by
    intro editor schedule header length suffix htarget
    obtain ⟨hrecorder, hsteps, -, -, hbest⟩ := Session.plan_facts (τ := τ) {
      editor, schedule, header, originalLength := length, suffix
      replay := none
      mode := .replay
      recorder := .empty
      maxSteps := Nat.min (length + c'.livenessThreshold) (UInt64.size - 1)
      steps := 0 }
    refine ⟨hrecorder, hsteps, rfl, fun kind hkind => ?_⟩
    have htarget' := hbest.target.trans htarget
    rw [show (Session.ofEditor editor schedule header c' length suffix).editor.target = none from
      htarget'] at hkind
    cases hkind
  cases h with
  | schedule => exact hnone _ _ _ _ _ rfl
  | tree => exact hnone _ _ _ _ _ rfl

/-- A run leaves a best tree that shows the bug that is looked for. -/
theorem Program.Starts.accounts (h : p.Starts c first s) (hs : p.Minimizes c first s)
    (hrun : p.Accounts c i s s') : s'.maxSteps = first.maxSteps ∧
      ∀ kind ∈ s'.editor.target, ∀ tree ∈ s'.editor.best, p.Shows c first tree kind := by
  let m := p.run (.new i c s)
  have hheard := Session.heard_of_follows
    (Machine.follows_run p Machine.stepLimit (.start p (.new i c s)))
  have hmax : m.scheduler.strategy.maxSteps = s.maxSteps := hheard.maxSteps
  have hsearch : s.editor.SameSearch m.scheduler.strategy.editor := hheard.search
  obtain ⟨hmax', -, heditor⟩ := Session.onEnd_facts hrun.closed
  refine ⟨hmax'.trans (hmax.trans h.maxSteps), ?_⟩
  rw [heditor]
  rcases Editor.best_endRun m.scheduler.strategy.editor (m.scheduler.bug.map (·.kind))
    m.recordedTree with hsame | ⟨hreproduced, haccepted⟩
  · -- the best tree is one that was accepted before
    have hbest := hsearch.sameBest.trans hsame
    intro kind hkind tree htree
    exact h.shown kind (hbest.target.symm.trans hkind) tree (hbest.best.symm.trans htree)
  · -- the best tree is that of the run itself
    intro kind hkind tree htree
    have htarget := haccepted.target.trans (Editor.target_accept hreproduced m.recordedTree).1
    exact ⟨i, s, hs, hrun.ended, hrun.error, htarget.symm.trans hkind,
      Option.some.inj (haccepted.best.symm.trans htree)⟩

/-- Every run of a minimization starts with an empty recording, under the bound of the first one. -/
theorem Program.Minimizes.starts (h : p.Minimizes c first s) (hfirst : first.Begins c') :
    p.Starts c first s := by
  induction h with
  | first => exact Program.starts_first hfirst
  | next before run prepared ih =>
      obtain ⟨hmax, hshown⟩ := ih.accounts before run
      obtain ⟨suffix, -, rfl⟩ := Session.prepare_facts prepared
      obtain ⟨hrecorder, hsteps, hmax', -, hbest⟩ := Session.plan_facts _
      refine ⟨hrecorder, hsteps, hmax'.trans hmax, fun kind hkind tree htree => ?_⟩
      exact hshown kind (hbest.target.symm.trans hkind) tree (hbest.best.symm.trans htree)

/-- A minimization keeps its fairness if all states of its suffix have the same. -/
theorem Program.Minimizes.isFair (h : p.Minimizes c first s) {fair : Bool}
    (hfair : ∀ t : τ, Strategy.isFair t = fair) {q : Session τ} (hreaches : Strategy.Reaches s q) :
    Strategy.isFair q = Strategy.isFair first := by
  -- what counts is whether there is a suffix, and no step of a minimization changes this
  have hsame : s.suffix.isSome = first.suffix.isSome := by
    clear hreaches
    induction h with
    | first => rfl
    | @next i s s' s'' before run prepared ih =>
        have hheard := Session.heard_of_follows
          (Machine.follows_run p Machine.stepLimit (.start p (.new i c s)))
        obtain ⟨-, hended, -⟩ := Session.onEnd_facts run.closed
        obtain ⟨suffix, hprepared, rfl⟩ := Session.prepare_facts prepared
        rw [(Session.plan_facts _).2.2.2.1, ← ih]
        exact hprepared.trans (hended.trans hheard.suffix)
  rw [Session.isFair_eq hfair, Session.isFair_eq hfair, Session.isSome_of_reaches hreaches, hsame]

/-- A run finds a bug of the given kind, and its tree is the given one. -/
structure Machine.Finds {σ : Type} [Strategy σ] [Records σ] (p : Program β) (m : Machine σ β)
    (tree : EventTree) (kind : BugKind) : Prop where
  ended : Machine.step? p m = none
  error : m.scheduler.error = none
  tree : m.recordedTree = tree
  bug : m.scheduler.bug.map (·.kind) = some kind

theorem Program.Minimizes.wholeRun (hs : p.Minimizes c first s) (hfirst : first.Begins c')
    (hended : Machine.step? p (p.run (.new i c s)) = none)
    (herror : (p.run (.new i c s)).scheduler.error = none) : p.WholeRun c i s :=
  ⟨(hs.starts hfirst).recorder, hended, herror⟩

/-- Every run of a minimization is recorded. -/
theorem Program.Minimizes.recordedRun (hs : p.Minimizes c first s) (hfirst : first.Begins c')
    {fair : Bool}
    (hfair : ∀ s, p.Minimizes c first s → ∀ q, Strategy.Reaches s q → Strategy.isFair q = fair)
    (hended : Machine.step? p (p.run (.new i c s)) = none)
    (herror : (p.run (.new i c s)).scheduler.error = none) : p.RecordedRun c i s fair :=
  ⟨hfair s hs, (hs.starts hfirst).recorder, hended, herror⟩

theorem Program.Shows.size_lt {tree : EventTree} {kind : BugKind} (h : p.Shows c first tree kind)
    (hfirst : first.Begins c') : tree.size < UInt64.size := by
  obtain ⟨i, s, hs, hended, herror, -, rfl⟩ := h
  exact (hs.wholeRun hfirst hended herror).size_lt

section Again

variable {tree : EventTree} {kind : BugKind} (h : p.Shows c first tree kind)
  (hfirst : first.Begins c') {fair : Bool}
  (hfair : ∀ s, p.Minimizes c first s → ∀ q, Strategy.Reaches s q → Strategy.isFair q = fair)
include h hfirst hfair

/-- A tree that shows a bug shows it again when it is retraced, be it under the bound of the
minimization or, if the bug is not this bound, under one behind the tree. -/
theorem Program.Shows.again {r : Session τ} (hretraces : r.Retraces tree)
    (hsuffix : r.suffix.any Strategy.isFair = fair)
    (hobliging : kind ≠ .assertion → ∀ t ∈ r.suffix, Strategy.Obliging t)
    (hbound : r.maxSteps = first.maxSteps ∨
      kind ≠ .stepBound ∧ ∀ steps ≤ tree.size, r.cutsAt steps = false) (j : Nat) :
    Machine.Finds p (p.run (.new j c r)) tree kind := by
  obtain ⟨i, s, hs, hended, herror, hbug, rfl⟩ := h
  have hstarts := hs.starts hfirst
  have hrun := hs.recordedRun hfirst hfair hended herror
  obtain ⟨bug, hfound, hkind⟩ := Option.map_eq_some_iff.mp hbug
  -- the new session is cut off where the recorded one was, or nowhere in the tree
  have hbounds : r.Bounds (p.said (.new i c s)) := by
    rcases hbound with hmax | ⟨hkind', hcut⟩
    · have hfollows := Machine.follows_run p Machine.stepLimit (.start p (.new i c s))
      exact Session.bounds_of_follows hfollows hstarts.steps (hmax.trans hstarts.maxSteps.symm)
    · exact hrun.whole.bounds (Or.inl ⟨bug, hfound, hkind.symm ▸ hkind'⟩) hcut
  have hrepeats := hrun.repeats hretraces hsuffix hbounds
    (fun hne => hobliging fun heq => hne (by rw [hbug, heq]))
    (Or.inl (by rw [hfound]; exact Option.some_ne_none bug)) j
  exact ⟨hrepeats.ended, hrepeats.error, hrepeats.tree, by rw [hrepeats.bug, hbug]⟩

end Again

end Interleave
