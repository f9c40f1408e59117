import Interleave.Minimization.Minimized
import Interleave.Proofs.Engine.Rounds
import Interleave.Proofs.Minimization.BestTree
import Interleave.Proofs.Minimization.RunBound
import Interleave.Proofs.Minimization.WithheldSends

/-!
# The end of a minimization

An engine that runs a program under a minimizing strategy has no budget of its own: it goes on until
the strategy has nothing more to run. Whatever the program asks of its scheduler, the calls that
reach the editor are requests, sends and, once an iteration, the end of the run
(`Session.exists_calls_of_follows`, `Session.Closes`). Phases only move forward, and within a phase
every iteration uses up a run that was left, so that the iterations end (`Session.exists_end`), and
they are no more than the bound on the runs of the editor allows.
-/

namespace Interleave

/-- Whatever the harness does with a scheduler, the strategy meets it only in exchanges. -/
def Harness.Converses {σ ρ : Type} [Strategy σ] (h : Harness σ ρ) : Prop :=
  ∀ (r : ρ) (s : Scheduler σ), ∃ l, Follows s.strategy l (h r s).2.strategy

/-- A harness that only calls its scheduler converses with the strategy. -/
theorem Harness.OnlyCalls.converses {σ ρ : Type} [Strategy σ] {harness : Harness σ ρ}
    (h : harness.OnlyCalls) : harness.Converses := by
  intro r s
  obtain ⟨calls, hcalls⟩ := h r s
  exact ⟨s.saidAll calls, hcalls ▸ s.follows_saidAll calls⟩

theorem Program.converses_harness {σ β : Type} [Strategy σ] (p : Program β) :
    (p.harness : Harness σ (Array RunRecord)).Converses :=
  p.onlyCalls_harness.converses

namespace Minimization

/-! ## The calls of an iteration -/

namespace Editor

/-- Calls that do not end a run. -/
def WithinRun (calls : List Call) : Prop :=
  ∀ c ∈ calls, c.endsRun = false

theorem exists_calls_of_asked {e e' : Editor} (h : e.Asked e') :
    ∃ calls, WithinRun calls ∧ e' = e.afterAll calls := by
  cases h with
  | spared => exact ⟨[], nofun, rfl⟩
  | operation choices => exact ⟨[.nextOperation choices], by simp [WithinRun, Call.endsRun], rfl⟩
  | choice boolean =>
      cases boolean with
      | true =>
          exact ⟨[.nextBoolean], by simp [WithinRun, Call.endsRun], (after_nextBoolean e).symm⟩
      | false =>
          exact ⟨[.nextInteger 0], by simp [WithinRun, Call.endsRun], (after_nextInteger e 0).symm⟩

theorem after_of_within (e : Editor) {c : Call} (h : c.endsRun = false) :
    e.SameSearch (e.after c) :=
  after_of_not_endRun e fun _ _ heq => by simp [heq, Call.endsRun] at h

theorem sameSearch_afterAll {calls : List Call} (h : WithinRun calls) (e : Editor) :
    e.SameSearch (e.afterAll calls) := by
  induction calls generalizing e with
  | nil => exact .refl e
  | cons c calls ih =>
      obtain ⟨hc, hcalls⟩ := List.forall_mem_cons.mp h
      exact (e.after_of_within hc).trans (ih hcalls (e.after c))

/-- What is left at the end of a run is what was left within it. -/
theorem runBound_afterAll {calls : List Call} (h : WithinRun calls) (e : Editor)
    (more : List Call) : (e.afterAll calls).runBound more = e.runBound (calls ++ more) := by
  induction calls generalizing e with
  | nil => rfl
  | cons c calls ih =>
      obtain ⟨hc, hcalls⟩ := List.forall_mem_cons.mp h
      refine (ih hcalls (e.after c)).trans ?_
      have hsame := runsLeft_of_sameSearch (e.after_of_within hc)
      cases c with
      | endRun bug tree => cases hc
      | beginRun | nextOperation | nextBoolean | nextInteger | onSend => exact hsame _ _

theorem BeforeEdits.isCompleted {e : Editor} (h : BeforeEdits e.phase) :
    e.isCompleted = false := by
  unfold Editor.isCompleted
  generalize e.phase = phase at h
  cases h <;> rfl

/-- A minimization that is over has a best tree. -/
theorem exists_best_of_isCompleted {start : Editor} (hstart : Started start) {calls : List Call}
    (h : (start.afterAll calls).isCompleted = true) :
    ∃ tree, (start.afterAll calls).best = some tree := by
  have hacc := accounted_afterAll hstart calls
  cases htarget : (start.afterAll calls).target with
  | none => exact Bool.noConfusion (h.symm.trans (hacc.untargeted htarget).isCompleted)
  | some kind =>
      obtain ⟨run, -, -, hbest⟩ := hacc.shown kind htarget
      exact ⟨run.tree, hbest⟩

end Editor

namespace Session

open Editor

variable {τ : Type}

/-- The editor of a new session has just been started. -/
theorem Begins.started {c : Configuration} {first : Session τ} (h : first.Begins c) :
    ∃ start, Started start ∧ first.editor = start.afterAll [.beginRun] := by
  cases h with
  | schedule => exact ⟨_, .schedule _ _, editor_plan _⟩
  | tree => exact ⟨_, .tree _ _ _, editor_plan _⟩

variable [Strategy τ]

/-- In a dialogue only requests and sends reach the editor of a session. -/
theorem exists_calls_of_follows {s s' : Session τ} {l : List Exchange} (h : Follows s l s') :
    ∃ calls, WithinRun calls ∧ s'.editor = s.editor.afterAll calls := by
  induction l generalizing s with
  | nil => exact ⟨[], nofun, by rw [follows_nil.mp h]; rfl⟩
  | cons e l ih =>
      obtain ⟨middle, he, hl⟩ := h
      obtain ⟨calls, hcalls, heq⟩ := ih hl
      have hfirst : ∃ first, WithinRun first ∧ middle.editor = s.editor.afterAll first := by
        obtain hasked | ⟨_, _, event, _, -, hsend⟩ := editor_of_moves he
        · exact exists_calls_of_asked hasked
        · exact ⟨[.onSend event], by simp [WithinRun, Call.endsRun], hsend⟩
      obtain ⟨first, hfirst, hmiddle⟩ := hfirst
      refine ⟨first ++ calls, fun c hc => ?_, ?_⟩
      · exact (List.mem_append.mp hc).elim (hfirst c) (hcalls c)
      · rw [heq, hmiddle, afterAll_append]

/-- What becomes of a session when an iteration is closed, and the calls that its editor gets. -/
inductive Closes (s : Session τ) : List Call → Engine.Verdict → Session τ → Prop
  | failed {made : List Call} {s' : Session τ} (source : StrategyError) :
      s'.editor = s.editor.afterAll made → Closes s made (.failed source) s'
  | done {made : List Call} {s' : Session τ} : s'.editor = s.editor.afterAll made →
      s'.isCompleted = true → Closes s made .done s'
  | next {s' : Session τ} (bug : Option BugKind) (tree : EventTree) :
      (s.editor.endRun bug tree).1 = .ok () → (s.editor.endRun bug tree).2.isCompleted = false →
      s'.editor = (s.editor.endRun bug tree).2.beginRun →
      Closes s [.endRun bug tree, .beginRun] .next s'

/-- A session that has been told of the end of a run without an error has taken it into account. -/
theorem ok_of_onEnd {s s' : Session τ} {outcome : Outcome} (h : s.onEnd outcome = (.ok (), s')) :
    (s.editor.endRun (outcome.bug.map (·.kind))
      (s.recorder.recordEnd (outcome.bug.map (·.kind))).tree).1 = .ok () := by
  unfold onEnd at h
  dsimp only at h
  split at h
  · cases h
  · assumption
  · assumption

/-- A completed session has nothing more to run. -/
theorem prepare_of_isCompleted {s : Session τ} (h : s.isCompleted = true) :
    Strategy.prepare s = (.ok false, s) :=
  if_pos h

/-- A session that is not completed plans another run, unless its suffix fails. -/
theorem prepare_of_open {s : Session τ} (h : s.isCompleted = false) :
    (∃ source s', Strategy.prepare s = (.error source, s') ∧ s'.editor = s.editor) ∨
      ∃ s', Strategy.prepare s = (.ok true, s') ∧ s'.editor = s.editor.beginRun := by
  rcases hprepare : Strategy.prepare s with ⟨answer, s'⟩
  cases Prepared.of_prepare hprepare with
  | completed hcompleted => simp [h] at hcompleted
  | rejected => exact Or.inl ⟨_, _, rfl, rfl⟩
  | unsuffixed => exact Or.inr ⟨_, rfl, editor_plan s⟩
  | suffixed => exact Or.inr ⟨_, rfl, editor_plan _⟩

/-- The end of a run is the end of the iteration, or it is taken into account and there is more to
be run. -/
theorem closes_close (e : Engine (Session τ)) (hconfig : e.config.stopAfterFirstBug = false)
    (outcome : Outcome) :
    ∃ made, e.strategy.Closes made (e.close outcome).1 (e.close outcome).2.strategy := by
  let bug := outcome.bug.map (·.kind)
  let tree := (e.strategy.recorder.recordEnd bug).tree
  cases herror : outcome.error with
  | some source =>
      simp only [Engine.close, herror]
      exact ⟨[], .failed source rfl⟩
  | none =>
      rcases hend : Strategy.onEnd e.strategy outcome with ⟨result, s'⟩
      have hend' : e.strategy.onEnd outcome = (result, s') := hend
      have heditor : s'.editor = (e.strategy.editor.endRun bug tree).2 := (onEnd_facts hend').2.2
      cases result with
      | error source =>
          simp only [Engine.close, herror, hend]
          exact ⟨[.endRun bug tree], .failed source heditor⟩
      | ok =>
          simp only [Engine.close, herror, hend, hconfig, Bool.and_false, Bool.false_eq_true,
            if_false]
          cases hcompleted : s'.isCompleted with
          | true =>
              rw [prepare_of_isCompleted hcompleted]
              exact ⟨[.endRun bug tree], .done heditor hcompleted⟩
          | false =>
              have hopen : (e.strategy.editor.endRun bug tree).2.isCompleted = false :=
                heditor ▸ hcompleted
              obtain ⟨source, s'', hprepare, hsame⟩ | ⟨s'', hprepare, hnext⟩ :=
                prepare_of_open hcompleted
              · rw [hprepare]
                exact ⟨[.endRun bug tree], .failed source (hsame.trans heditor)⟩
              · rw [hprepare]
                exact ⟨_, .next bug tree (ok_of_onEnd hend') hopen (heditor ▸ hnext)⟩

/-! ## The iterations of an engine -/

section Iterate

variable {ρ : Type} {harness : Harness (Session τ) ρ}

theorem follows_runOnce (h : harness.Converses) (e : Engine (Session τ)) (r : ρ) :
    ∃ l, Follows e.strategy l (e.runOnce harness r).2.1.strategy := by
  obtain ⟨l, hl⟩ := h r (.new e.iterations e.config e.strategy)
  refine ⟨l, ?_⟩
  unfold Engine.runOnce
  dsimp only
  split <;> exact hl

/-- An iteration that is followed by another one has brought the editor forward. -/
theorem advances_next {e e₁ e₂ : Editor} (horderly : e₁.Orderly) (hsame : e.SameSearch e₁)
    {bug : Option BugKind} {tree : EventTree} (hok : (e₁.endRun bug tree).1 = .ok ())
    (hopen : e₁.isCompleted = false) (hopen' : (e₁.endRun bug tree).2.isCompleted = false)
    (hnext : e₂ = (e₁.endRun bug tree).2.beginRun) :
    Prod.Lex (· < ·) (· < ·) (6 - e₂.phase.rank, e₂.runsLeft 0 0)
      (6 - e.phase.rank, e.runsLeft 0 0) := by
  have hbegin : (e₁.endRun bug tree).2.SameSearch e₂ := hnext ▸ ⟨_, _, rfl⟩
  rw [← runsLeft_of_sameSearch hsame, ← hsame.phase, runsLeft_of_sameSearch hbegin, hbegin.phase]
  have hrank : ¬6 ≤ (e₁.endRun bug tree).2.phase.rank :=
    mt isCompleted_iff_rank.mpr (by simp [hopen'])
  obtain hlt | ⟨heq, hlt⟩ := horderly.advances_endRun hok hopen
  · exact .left _ _ (by omega)
  · rw [heq]
    exact .right _ hlt

/-- The iterations come to an end. They are no more than the runs of the editor that are left, no
budget that allows as many changes the result, and without an error the minimization is over. -/
theorem exists_end (hconverses : harness.Converses) (e : Engine (Session τ)) (r : ρ)
    (hconfig : e.config.stopAfterFirstBug = false) (horderly : e.strategy.editor.Orderly)
    (hopen : e.strategy.isCompleted = false) :
    ∃ made n, n ≤ e.strategy.editor.runBound made ∧ ∀ i, ∃ last,
      (∀ budget, n ≤ budget → Engine.iterate harness budget i e r = last) ∧
      last.2.1.strategy.editor = e.strategy.editor.afterAll made ∧
      (last.1 = .ok () → last.2.1.strategy.isCompleted = true) := by
  -- one iteration: the run, and the end of the run
  obtain ⟨l, hl⟩ := follows_runOnce hconverses e r
  obtain ⟨calls, hcalls, heditor⟩ := exists_calls_of_follows hl
  have hsame := heditor ▸ sameSearch_afterAll hcalls e.strategy.editor
  have hconfig₁ : (e.runOnce harness r).2.1.config.stopAfterFirstBug = false := hconfig
  generalize hrun : e.runOnce harness r = run at hl heditor hsame hconfig₁
  obtain ⟨outcome, e₁, r₁⟩ := run
  obtain ⟨made, hcloses⟩ := closes_close e₁ hconfig₁ outcome
  have hconfig₂ := (e₁.frame_close outcome).1
  generalize hclose : e₁.close outcome = closed at hcloses hconfig₂
  obtain ⟨verdict, e₂⟩ := closed
  have hpos : ∀ made, 1 ≤ e.strategy.editor.runBound made :=
    fun made => horderly.runsLeft_pos hopen _ _
  cases hcloses with
  | failed source heq =>
      refine ⟨calls ++ made, 1, hpos _, fun i => ⟨(.error ⟨i, source⟩, e₂, r₁), ?_, ?_, nofun⟩⟩
      · rintro (_ | budget) hle
        · cases hle
        · simp only [Engine.iterate, hrun, hclose]
      · rw [afterAll_append, ← heditor]
        exact heq
  | done heq hcompleted =>
      refine ⟨calls ++ made, 1, hpos _, fun i => ⟨(.ok (), e₂, r₁), ?_, ?_, fun _ => hcompleted⟩⟩
      · rintro (_ | budget) hle
        · cases hle
        · simp only [Engine.iterate, hrun, hclose]
      · rw [afterAll_append, ← heditor]
        exact heq
  | next bug tree hok hopen' hnext =>
      have horderly₁ : e₁.strategy.editor.Orderly := horderly.frame hsame
      have hopen₁ : e₁.strategy.editor.isCompleted = false := by
        rw [Editor.isCompleted, hsame.phase]
        exact hopen
      have horderly₂ : e₂.strategy.editor.Orderly :=
        hnext ▸ (horderly₁.endRun bug tree).after .beginRun
      have hopen₂ : e₂.strategy.isCompleted = false := by
        rw [isCompleted, hnext]
        exact hopen'
      have hconfig₃ : e₂.config.stopAfterFirstBug = false :=
        (congrArg (·.stopAfterFirstBug) hconfig₂).trans hconfig₁
      have hless := advances_next horderly₁ hsame hok hopen₁ hopen' hnext
      obtain ⟨made, n, hle, hend⟩ := exists_end hconverses e₂ r₁ hconfig₃ horderly₂ hopen₂
      refine ⟨calls ++ .endRun bug tree :: .beginRun :: made, n + 1, ?_, fun i => ?_⟩
      · have hrun := horderly₁.runBound_after hopen₁ (.endRun bug tree) (.beginRun :: made)
        rw [← runBound_afterAll hcalls, ← heditor]
        rw [show e₁.strategy.editor.takes (.endRun bug tree) = true from congrArg Except.isOk hok]
          at hrun
        refine (Nat.succ_le_succ hle).trans (le_trans ?_ hrun)
        rw [hnext]
        exact Nat.le_refl _
      · obtain ⟨last, hbudget, hmade, hdone⟩ := hend (i + 1)
        refine ⟨last, ?_, ?_, hdone⟩
        · rintro (_ | budget) hle
          · cases hle
          · simp only [Engine.iterate, hrun, hclose]
            exact hbudget budget (Nat.le_of_succ_le_succ hle)
        · rw [hmade, hnext, afterAll_append, ← heditor]
          rfl
termination_by (6 - e.strategy.editor.phase.rank, e.strategy.editor.runsLeft 0 0)
decreasing_by exact hless

end Iterate

/-! ## The end -/

/-- A minimization with a budget that allows the runs it takes has a result or an error of the
engine. -/
theorem minimize_ne_incomplete {ρ : Type} {c : Configuration} {first : Session τ}
    {harness : Harness (Session τ) ρ} {r : ρ}
    {last : Except EngineError Unit × Engine (Session τ) × ρ}
    (hlast : (Engine.new (sessionConfiguration c) first).run harness r = last)
    (hdone : last.1 = .ok () → last.2.1.strategy.isCompleted = true ∧
      ∃ tree, last.2.1.strategy.editor.best = some tree) :
    (minimize c first harness r).1 ≠ .error .incomplete := by
  unfold minimize
  rw [hlast]
  obtain ⟨result, e, r'⟩ := last
  cases result with
  | error error =>
      intro hincomplete
      have herror : MinimizeError.ofEngineError error = .incomplete :=
        Except.error.inj hincomplete
      unfold MinimizeError.ofEngineError at herror
      split at herror <;> cases herror
  | ok =>
      obtain ⟨hcompleted, tree, htree⟩ := hdone rfl
      simp only at hcompleted htree
      simp [collect, hcompleted, bestMintrace, htree]

end Session

/-- A minimization ends. A started editor is done when as many runs have been taken into account as
it allows for, its phases only move forward, and a session that is done has nothing more to run. So
an engine that goes on until its strategy has nothing more to run stops, after no more iterations
than the runs allowed for: a larger budget changes nothing, and without an error the session is
done. Where its own count of iterations can hold that number, a minimization is complete or ends
with an error. -/
theorem minimization_ends {τ ρ : Type} [Strategy τ] {start : Editor} (hstart : Editor.Started start)
    (calls : List Editor.Call) {c₀ : Configuration} {first : Session τ} (hfirst : first.Begins c₀)
    {harness : Harness (Session τ) ρ} (hconverses : harness.Converses) (c : Configuration) (r : ρ) :
    (start.allowedRuns calls ≤ start.runsTaken calls →
        ∃ transition, (start.afterAll calls).phase = .completed transition) ∧
      (∀ call, (start.afterAll calls).phase.rank ≤
        ((start.afterAll calls).after call).phase.rank) ∧
      (∀ s : Session τ, s.isCompleted = true → Strategy.prepare s = (.ok false, s)) ∧
      ∃ made n last, n ≤ first.editor.allowedRuns made ∧
        (∀ budget, n ≤ budget →
          (Engine.new (sessionConfiguration c) first).iterate harness budget 0 r = last) ∧
        last.2.1.strategy.editor = first.editor.afterAll made ∧
        (last.1 = .ok () → last.2.1.strategy.isCompleted = true) ∧
        (n < UInt64.size → (minimize c first harness r).1 ≠ .error .incomplete) := by
  refine ⟨fun hle => ?_, Editor.rank_after _, fun _ => Session.prepare_of_isCompleted, ?_⟩
  · rw [← Editor.runBound_of_beforeEdits hstart.beforeEdits] at hle
    have hdone := (Editor.orderly_afterAll hstart []).isCompleted_of_runBound_le calls hle
    exact Editor.isCompleted_iff.mp hdone
  · obtain ⟨start', hstart', hfirst'⟩ := hfirst.started
    have hbefore : Editor.BeforeEdits first.editor.phase := hfirst' ▸ hstart'.beforeEdits
    have horderly : first.editor.Orderly := hfirst' ▸ Editor.orderly_afterAll hstart' [.beginRun]
    obtain ⟨made, n, hle, hend⟩ := Session.exists_end hconverses
      (Engine.new (sessionConfiguration c) first) r rfl horderly hbefore.isCompleted
    obtain ⟨last, hbudget, hmade, hdone⟩ := hend 0
    refine ⟨made, n, last, Editor.runBound_of_beforeEdits hbefore made ▸ hle, hbudget, hmade,
      hdone, fun hsize => ?_⟩
    refine Session.minimize_ne_incomplete (hbudget _ (Nat.le_sub_one_of_lt hsize)) fun hok => ?_
    have hcompleted := hdone hok
    have heditor : last.2.1.strategy.editor = start'.afterAll (.beginRun :: made) := by
      rw [hmade]
      exact congrArg (Editor.afterAll · made) hfirst'
    rw [Session.isCompleted, heditor] at hcompleted
    exact ⟨hdone hok, heditor ▸ Editor.exists_best_of_isCompleted hstart' hcompleted⟩

/-- Two sends laid out for bisection, each candidate of which has to be reproduced twice, take all
the ten runs that they may: one replay, two for each of three candidates, another replay and two of
the search. And the engine that minimizes a program stops of itself after seven iterations. -/
theorem minimization_ends_of_two_sends :
    let tick : Step :=
      { EventTree.rootStep with kind := .send, event := some { name := "Tick" } }
    let tree : EventTree := { EventTree.root with steps := #[EventTree.rootStep, tick, tick] }
    let start := (Editor.new { droppable := ["Tick"], layout := .bisect, replays := 2 } .always)
      |>.startFromTree tree
    let bug : BugKind := .assertion
    let calls : List Editor.Call := [.endRun bug tree,
      .endRun bug tree, .endRun none tree, .endRun bug tree, .endRun none tree, .endRun bug tree,
      .endRun bug tree, .endRun bug tree, .endRun bug tree, .endRun bug tree]
    Editor.Started start ∧ start.allowedRuns calls = 10 ∧ start.runsTaken calls = 10 ∧
      (∃ transition, (start.afterAll calls).phase = .completed transition) ∧
      ∃ made n last, n ≤ noisySession.editor.allowedRuns made ∧
        (∀ budget, n ≤ budget → (Engine.new (sessionConfiguration {}) noisySession).iterate
          noisyHarness.harness budget 0 #[] = last) ∧
        (n < UInt64.size →
          (minimize {} noisySession noisyHarness.harness #[]).1 ≠ .error .incomplete) ∧
        (minimize {} noisySession noisyHarness.harness #[]).1.isOk = true ∧
        (minimize {} noisySession noisyHarness.harness #[]).2.size = 7 := by
  intro tick tree start bug calls
  have hstart : Editor.Started start := .tree _ _ _
  have hfirst : noisySession.Begins {} := .schedule _ _ _ _ _
  obtain ⟨hend, -, -, made, n, last, hle, hbudget, -, -, hminimized⟩ :=
    minimization_ends hstart calls hfirst (Program.converses_harness noisyHarness) {} #[]
  have hallowed : start.allowedRuns calls = 10 := by decide +kernel
  have htaken : start.runsTaken calls = 10 := by decide +kernel
  exact ⟨hstart, hallowed, htaken, hend (by rw [hallowed, htaken]), made, n, last, hle, hbudget,
    hminimized, by decide +kernel, by decide +kernel⟩

end Minimization

end Interleave
