import Interleave.Program.Harness
import Interleave.Proofs.Minimization.Accepting
import Interleave.Proofs.Minimization.EditSearch
import Interleave.Proofs.Minimization.TrialRuns
import Interleave.Strategy.RandomWalk

/-!
# What a minimization withholds

A minimization that starts from a schedule has nothing withheld at first. Ranges are tried in
increasing order, so that every run that tries one is guided by a tree in which only sends of lower
numbers are withheld (`Program.Edited`). Such a run makes the steps of the tree up to the first send
of the range, which it withholds, and behind it withholds only sends of the range. It may stop
before, if the suffix has become fair and a monitor overheats. Whatever the best tree withholds
belongs to an accepted range (`Program.minimization_withholds_accepted`).
-/

namespace Interleave

open Minimization

namespace Minimization

/-! ## Accepted ranges -/

namespace Editor

/-- The number lies in a range that has been accepted. -/
def Accepted (e : Editor) (number : Nat) : Prop :=
  ∃ t ∈ e.trials, t.reproduced = true ∧ t.range.contains number = true

theorem Accepted.frame {e e' : Editor} {number : Nat} (h : e.Accepted number)
    (hsame : e.SameSearch e') : e'.Accepted number := by
  obtain ⟨cursor, seen, rfl⟩ := hsame
  exact h

theorem Accepted.append {e e' : Editor} {number : Nat} (h : e.Accepted number) {more : List Trial}
    (htrials : e'.trials = e.trials ++ more) : e'.Accepted number := by
  obtain ⟨t, ht, hreproduced, hnumber⟩ := h
  refine ⟨t, ?_, hreproduced, hnumber⟩
  rw [htrials]
  exact List.mem_append_left more ht

/-- The phases whose runs may be accepted. -/
inductive Accepting : Phase → Prop where
  | scheduleReplay : Accepting .scheduleReplay
  | treeReplay (next : Stage) : Accepting (.treeReplay next)
  | edit (range : Range) : Accepting (.edit range)

/-- The end of a run leaves the best tree as it is and the accepted ranges accepted, or it accepts
the tree of the run and what has been withheld in it. -/
theorem accepted_endRun (e : Editor) (bug : Option BugKind) (tree : EventTree) :
    ((e.endRun bug tree).2.best = e.best ∧
        ∀ number, e.Accepted number → (e.endRun bug tree).2.Accepted number) ∨
      (e.endRun bug tree).2.best = some tree ∧ Accepting e.phase ∧ (∃ kind, bug = some kind) ∧
        ∀ number, e.Accepted number ∨ e.withholds number = true →
          (e.endRun bug tree).2.Accepted number := by
  have hbug : e.reproduces bug = true → ∃ kind, bug = some kind := fun h =>
    Option.ne_none_iff_exists'.mp (target_accept h tree).2
  have hending := e.ending_endRun bug tree
  generalize (e.endRun bug tree).1 = result, (e.endRun bug tree).2 = e' at hending ⊢
  cases hending with
  | unstarted | scheduleRejected | treeRejected | repeated | lowered | raised | finished =>
      exact Or.inl ⟨rfl, fun _ h => h⟩
  | scheduleReplayed hphase hrep =>
      refine Or.inr ⟨rfl, hphase ▸ .scheduleReplay, hbug hrep, fun number h => ?_⟩
      rw [withholds, hphase] at h
      exact h.resolve_right Bool.false_ne_true
  | treeReplayed next hphase hrep =>
      have hsame := sameResults_enter (e.counted.accept bug tree) next
      refine Or.inr ⟨hsame.best, hphase ▸ .treeReplay next, hbug hrep, fun number h => ?_⟩
      rw [withholds, hphase] at h
      have hold : (e.counted.accept bug tree).Accepted number := h.resolve_right Bool.false_ne_true
      exact hold.append (hsame.trials.trans (List.append_nil _).symm)
  | confirmed range hphase hrep =>
      have hsame := sameResults_nextCandidate ((e.counted.settle ⟨range, true⟩).accept bug tree)
      refine Or.inr ⟨hsame.best, hphase ▸ .edit range, hbug hrep, fun number h => ?_⟩
      rcases h with hold | hnew
      · exact hold.append hsame.trials
      · -- what the candidate withholds lies in the range that has just been accepted
        rw [withholds, hphase] at hnew
        refine ⟨⟨range, true⟩, ?_, rfl, hnew⟩
        rw [hsame.trials]
        exact List.mem_append_right e.trials (List.mem_singleton.mpr rfl)
  | refuted range =>
      have hsame := sameResults_nextCandidate
        { e.counted.settle ⟨range, false⟩ with untried := range.halves ++ e.untried }
      exact Or.inl ⟨hsame.best, fun number h => h.append hsame.trials⟩

/-! ## Ranges in increasing order -/

/-- The editor has not begun its edits, or it is at them with a best tree. -/
def Ordered (e : Editor) : Prop :=
  (e.phase = .scheduleReplay ∧ e.trials = []) ∨
    e.best ≠ none ∧ ((e.phase = .treeReplay .edits ∧ e.trials = []) ∨
      ∃ layout n, Edits layout n e)

theorem Ordered.frame {e e' : Editor} (h : e.Ordered) (hsame : e.SameSearch e') : e'.Ordered := by
  rcases h with hbefore | ⟨hbest, hbefore | ⟨layout, n, hedits⟩⟩
  · obtain ⟨cursor, seen, rfl⟩ := hsame
    exact Or.inl hbefore
  · obtain ⟨cursor, seen, rfl⟩ := hsame
    exact Or.inr ⟨hbest, Or.inl hbefore⟩
  · refine Or.inr ⟨?_, Or.inr ⟨layout, n, hedits.frame hsame⟩⟩
    obtain ⟨cursor, seen, rfl⟩ := hsame
    exact hbest

theorem Ordered.endRun {e : Editor} (h : e.Ordered) (bug : Option BugKind) (tree : EventTree) :
    (e.endRun bug tree).2.Ordered := by
  rcases h with ⟨hphase, htrials⟩ | ⟨hbest, hstage⟩
  · unfold Editor.endRun
    dsimp only
    rw [hphase]
    dsimp only
    cases e.reproduces bug with
    | false => exact Or.inl ⟨rfl, htrials⟩
    | true => exact Or.inr ⟨Option.some_ne_none tree, Or.inl ⟨rfl, htrials⟩⟩
  · have hkept : (e.endRun bug tree).2.best ≠ none := by
      rcases accepted_endRun e bug tree with ⟨hsame, -⟩ | ⟨hnew, -⟩
      · rw [hsame]
        exact hbest
      · rw [hnew]
        exact Option.some_ne_none tree
    refine Or.inr ⟨hkept, ?_⟩
    rcases hstage with ⟨hphase, htrials⟩ | ⟨layout, n, hedits⟩
    · cases hreproduced : e.reproduces bug with
      | false =>
          left
          unfold Editor.endRun
          dsimp only
          rw [hphase, hreproduced]
          exact ⟨rfl, htrials⟩
      | true => exact Or.inr ⟨_, _, edits_endRun_treeReplay tree hphase hreproduced htrials⟩
    · exact Or.inr ⟨layout, n, hedits.endRun bug tree⟩

/-- Once the schedule has been replayed, there is a best tree. -/
theorem Ordered.exists_best {e : Editor} (h : e.Ordered) (hphase : e.phase ≠ .scheduleReplay) :
    ∃ tree, e.best = some tree := by
  rcases h with ⟨hbefore, -⟩ | ⟨hbest, -⟩
  · exact absurd hbefore hphase
  · exact Option.ne_none_iff_exists'.mp hbest

/-- The range that is tried is not empty, and all accepted numbers lie below it. -/
theorem Ordered.of_edit {e : Editor} (h : e.Ordered) {range : Range}
    (hphase : e.phase = .edit range) :
    1 ≤ range.first ∧ range.first ≤ range.last ∧
      ∀ number, e.Accepted number → number < range.first := by
  rcases h with ⟨hbefore, -⟩ | ⟨-, ⟨hbefore, -⟩ | ⟨layout, n, hedits⟩⟩
  · rw [hphase] at hbefore
    cases hbefore
  · rw [hphase] at hbefore
    cases hbefore
  · have hsettling := hedits.settling
    rw [pending, hphase] at hsettling
    obtain ⟨hfirst, hle, -⟩ := hsettling.pending_within range List.mem_cons_self
    refine ⟨hfirst, hle, ?_⟩
    rintro number ⟨t, ht, hreproduced, hnumber⟩
    -- an accepted range is settled, and so stands in front of the one that is tried
    have hsettled : t.range ∈ (e.trials.filter Trial.settles).map (·.range) := by
      refine List.mem_map_of_mem (List.mem_filter.mpr ⟨ht, ?_⟩)
      simp [Trial.settles, hreproduced]
    have hlt := (List.pairwise_append.mp hsettling.tiles.pairwise).2.2 t.range hsettled range
      List.mem_cons_self
    simp only [Range.contains, Bool.and_eq_true, decide_eq_true_eq] at hnumber
    omega

/-- A number is withheld only while a range is tried that it lies in. -/
theorem exists_edit_of_withholds {e : Editor} {number : Nat} (h : e.withholds number = true) :
    ∃ range, e.phase = .edit range ∧ range.first ≤ number ∧ number ≤ range.last := by
  unfold withholds at h
  split at h
  · rename_i range hphase
    simp only [Range.contains, Bool.and_eq_true, decide_eq_true_eq] at h
    exact ⟨range, hphase, h⟩
  · cases h

theorem Ordered.of_withholds {e : Editor} (h : e.Ordered) {number : Nat}
    (hwithheld : e.withholds number = true) :
    0 < number ∧ ∀ n, e.Accepted n → n < number := by
  obtain ⟨range, hphase, hle, -⟩ := exists_edit_of_withholds hwithheld
  obtain ⟨hfirst, -, habove⟩ := h.of_edit hphase
  refine ⟨Nat.lt_of_lt_of_le hfirst hle, fun n hn => ?_⟩
  exact Nat.lt_of_lt_of_le (habove n hn) hle

end Editor

/-! ## Sessions at the start of a run -/

namespace Session

variable {τ : Type}

/-- The run that the editor asks for is planned. -/
structure Planned (s : Session τ) : Prop where
  editor : s.editor.beginRun = s.editor
  mode : s.editor.phase.isGuided = true → s.mode = .guided

theorem planned_plan (s : Session τ) : s.plan.Planned := by
  rcases s.plan_cases with ⟨schedule, ⟨hphase, -⟩, -, heq⟩ | ⟨-, heq⟩ <;> rw [heq] <;>
    refine ⟨rfl, fun hguided => ?_⟩
  · have hguided : s.editor.phase.isGuided = true := hguided
    rw [hphase] at hguided
    cases hguided
  · exact if_pos hguided

theorem Planned.droppableSeen {s : Session τ} (h : s.Planned) : s.editor.droppableSeen = 0 := by
  rw [← h.editor]
  rfl

theorem Planned.cursor_of_guided {s : Session τ} (h : s.Planned)
    (hguided : s.editor.phase.isGuided = true) :
    s.editor.cursor = s.editor.best.map (Cursor.start · s.editor.phase.cutoff) := by
  rw [← h.editor]
  exact if_pos hguided

theorem Planned.cursor_of_unguided {s : Session τ} (h : s.Planned)
    (hguided : s.editor.phase.isGuided = false) : s.editor.cursor = none := by
  rw [← h.editor]
  exact if_neg (Bool.eq_false_iff.mp hguided)

theorem sameSearch_of_reaches [Strategy τ] {s q : Session τ} (h : Strategy.Reaches s q) :
    s.editor.SameSearch q.editor := by
  induction h with
  | refl => exact .refl s.editor
  | step _ hmoves ih => exact ih.trans (heard_of_moves hmoves).search

end Session

end Minimization

variable {τ β : Type}

theorem Minimization.Session.Begins.planned {c : Configuration} {first : Session τ}
    (h : first.Begins c) : first.Planned := by
  cases h with
  | schedule =>
      unfold Session.ofSchedule Session.ofEditor
      exact Session.planned_plan _
  | tree =>
      unfold Session.ofTree Session.ofEditor
      exact Session.planned_plan _

variable [Strategy τ]

theorem Program.Minimizes.planned {p : Program β} {c c' : Configuration} {first s : Session τ}
    (h : p.Minimizes c first s) (hfirst : first.Begins c') : s.Planned := by
  cases h with
  | first => exact hfirst.planned
  | next before run prepared =>
      obtain ⟨suffix, -, rfl⟩ := Session.prepare_facts prepared
      exact Session.planned_plan _

/-! ## The whole minimization -/

/-- Ranges are tried in order, and the best tree is that of a run of the minimization. All that is
withheld in it is accepted. -/
structure Program.Edited (p : Program β) (c : Configuration) (first : Session τ)
    (settings : Settings) (e : Editor) : Prop where
  under : e.settings = settings
  lenient : e.policy.Lenient
  ordered : e.Ordered
  shown : ∀ tree ∈ e.best, ∃ kind, p.Shows c first tree kind
  withheld : ∀ tree ∈ e.best, tree.WithheldIn settings e.Accepted

section

variable {p : Program β} {c c' : Configuration} {first s s' : Session τ} {settings : Settings}
  {i : Nat}

theorem Program.Edited.frame {e e' : Editor} (h : p.Edited c first settings e)
    (hsame : e.SameSearch e') : p.Edited c first settings e' := by
  have hordered := h.ordered.frame hsame
  obtain ⟨cursor, seen, rfl⟩ := hsame
  exact ⟨h.under, h.lenient, hordered, h.shown, h.withheld⟩

/-- The first editor of a minimization that starts from a schedule. -/
theorem Program.edited_startFromSchedule (p : Program β) (c : Configuration) (first : Session τ)
    (settings : Settings) {policy : MatchPolicy} (hpolicy : policy.Lenient) :
    p.Edited c first settings (Editor.new settings policy).startFromSchedule where
  under := rfl
  lenient := hpolicy
  ordered := Or.inl ⟨rfl, rfl⟩
  shown tree htree := by cases htree
  withheld tree htree := by cases htree

section

variable (hfirst : first.Begins c')
include hfirst

/-- Where the best tree guides a run to its end, the run tries what the phase says. -/
theorem Program.Edited.tries (h : p.Edited c first settings s.editor) (hs : p.Minimizes c first s)
    (hguided : s.editor.phase.isGuided = true) (hcutoff : s.editor.phase.cutoff = none)
    {tree : EventTree} (htree : s.editor.best = some tree) :
    ∃ (k : Nat) (a : Session τ), p.Minimizes c first a ∧
      (p.run (.new k c a)).recordedTree = tree ∧ p.Tries c k a s.editor.Accepted s := by
  obtain ⟨kind, k, a, ha, hended, herror, -, rfl⟩ := h.shown tree htree
  have hstarts := hs.starts hfirst
  have hstarts' := ha.starts hfirst
  have hplanned := hs.planned hfirst
  have hcursor := hplanned.cursor_of_guided hguided
  rw [htree, hcutoff] at hcursor
  -- the run that was accepted stood under the same bound
  refine ⟨k, a, ha, rfl, ?_⟩
  exact {
    recorded := ha.wholeRun hfirst hended herror
    guided := ⟨h.lenient, hplanned.mode hguided, hcursor, hstarts.recorder, hstarts.steps⟩
    seen := hplanned.droppableSeen
    bounds := Session.bounds_of_follows
      (Machine.follows_run p Machine.stepLimit (.start p (.new k c a))) hstarts'.steps
      (hstarts.maxSteps.trans hstarts'.maxSteps.symm)
    withheld := by
      rw [h.under]
      exact h.withheld _ htree
    positive := fun number hnumber => (h.ordered.of_withholds hnumber).1
    above := fun n number hn hnumber => (h.ordered.of_withholds hnumber).2 n hn }

/-- In a run that may be accepted nothing is withheld but what has been accepted before and what
belongs to its range. -/
theorem Program.Edited.withheldIn_run (h : p.Edited c first settings s.editor)
    (hs : p.Minimizes c first s) (hphase : Editor.Accepting s.editor.phase) (j : Nat) :
    (p.run (.new j c s)).recordedTree.WithheldIn settings (s.Admits s.editor.Accepted) := by
  have hplanned := hs.planned hfirst
  rw [← h.under]
  by_cases hschedule : s.editor.phase = .scheduleReplay
  · -- no tree guides the run, and nothing is withheld
    have hcursor : s.editor.cursor = none := hplanned.cursor_of_unguided (by rw [hschedule]; rfl)
    have hnone : ∀ P, s.editor.AtCursor P := by
      intro P cursor hmem
      rw [hcursor] at hmem
      cases hmem
    have hrecorder := (hs.starts hfirst).recorder
    have hparted : s.Parted (s.Admits s.editor.Accepted) := by
      refine ⟨?_, ?_, fun number hnumber => Or.inr hnumber, hnone _, Or.inl (hnone _)⟩
      · rw [hrecorder]
        exact Recorder.sound_empty
      · rw [hrecorder]
        intro index hindex
        cases hindex
    exact Machine.withheldIn_runFor (m := .start p (.new j c s)) hparted (hnone _) p
      Machine.stepLimit
  · obtain ⟨tree, htree⟩ := h.ordered.exists_best hschedule
    have hguided : s.editor.phase.isGuided = true ∧ s.editor.phase.cutoff = none := by
      generalize s.editor.phase = phase at hphase hschedule
      cases hphase with
      | scheduleReplay => exact absurd rfl hschedule
      | treeReplay next => exact ⟨rfl, rfl⟩
      | edit range => exact ⟨rfl, rfl⟩
    obtain ⟨k, a, -, -, htries⟩ := h.tries hfirst hs hguided.1 hguided.2 htree
    exact (htries.withholds j).1

/-- What the end of a run makes of the search. -/
theorem Program.Edited.endRun (h : p.Edited c first settings s.editor) (hs : p.Minimizes c first s)
    (hended : Machine.step? p (p.run (.new i c s)) = none)
    (herror : (p.run (.new i c s)).scheduler.error = none) {result : Except StrategyError Unit}
    (hclosed : Strategy.onEnd (p.run (.new i c s)).scheduler.strategy
      (p.run (.new i c s)).scheduler.outcome = (result, s')) :
    p.Edited c first settings s'.editor := by
  let m := p.run (.new i c s)
  have hheard := Session.heard_of_follows
    (Machine.follows_run p Machine.stepLimit (.start p (.new i c s)))
  have hsearch : s.editor.SameSearch m.scheduler.strategy.editor := hheard.search
  have hframe := h.frame hsearch
  have hordered := hframe.ordered.endRun (m.scheduler.bug.map (·.kind)) m.recordedTree
  -- the run itself leaves the search alone, and only its end moves the search on
  have hverdict := Editor.accepted_endRun m.scheduler.strategy.editor
    (m.scheduler.bug.map (·.kind)) m.recordedTree
  obtain ⟨-, -, heditor⟩ := Session.onEnd_facts hclosed
  rw [heditor]
  have hlenient : (m.scheduler.strategy.editor.endRun (m.scheduler.bug.map (·.kind))
      m.recordedTree).2.policy.Lenient := by
    rw [Editor.policy_endRun]
    exact hframe.lenient
  refine ⟨(Editor.settings_endRun _ _ _).trans hframe.under, hlenient, hordered, ?_, ?_⟩
  · -- the best tree was accepted before, or it is that of the run itself
    intro tree htree
    rcases hverdict with ⟨hbest, -⟩ | ⟨hbest, -, ⟨kind, hkind⟩, -⟩
    · exact hframe.shown tree (hbest.symm.trans htree)
    · exact ⟨kind, i, s, hs, hended, herror, hkind, Option.some.inj (hbest.symm.trans htree)⟩
  · intro tree htree
    rcases hverdict with ⟨hbest, hkept⟩ | ⟨hbest, hphase, -, hkept⟩
    · exact (hframe.withheld tree (hbest.symm.trans htree)).mono hkept
    · -- what the run has withheld was accepted before or is so now
      rw [hsearch.phase] at hphase
      rw [← Option.some.inj (hbest.symm.trans htree)]
      refine (h.withheldIn_run hfirst hs hphase i).mono fun number hnumber => ?_
      refine hkept number ?_
      rw [hsearch.withholds]
      exact hnumber.imp_left fun hold => hold.frame hsearch

/-- Every run of the minimization starts with a best tree in which only accepted sends are
withheld. -/
theorem Program.Minimizes.edited (hs : p.Minimizes c first s)
    (hstart : p.Edited c first settings first.editor) : p.Edited c first settings s.editor := by
  -- the invariant goes over the end of a run, and planning the next one does not touch it
  induction hs with
  | first => exact hstart
  | next before run prepared ih =>
      have hafter := ih.endRun hfirst before run.ended run.error run.closed
      obtain ⟨suffix, -, rfl⟩ := Session.prepare_facts prepared
      exact hafter.frame (Session.sameSearch_plan _)

end

end

/-- The states that a minimization comes to: in its runs, at their ends and where the next one is
prepared. -/
inductive Program.ComesTo (p : Program β) (c : Configuration) (first : Session τ) :
    Session τ → Prop
  | within {s q : Session τ} (run : p.Minimizes c first s) (reached : Strategy.Reaches s q) :
      ComesTo p c first q
  | closed {i : Nat} {s s' : Session τ} {result : Except StrategyError Unit}
      (run : p.Minimizes c first s) (ended : Machine.step? p (p.run (.new i c s)) = none)
      (error : (p.run (.new i c s)).scheduler.error = none)
      (closed : Strategy.onEnd (p.run (.new i c s)).scheduler.strategy
        (p.run (.new i c s)).scheduler.outcome = (result, s')) : ComesTo p c first s'
  | prepared {i : Nat} {s s' s'' : Session τ} {answer : Except StrategyError Bool}
      (run : p.Minimizes c first s) (accounted : p.Accounts c i s s')
      (prepared : Strategy.prepare s' = (answer, s'')) : ComesTo p c first s''

theorem eq_ok_of_toOption {ε α : Type} {result : Except ε α} {a : α}
    (h : result.toOption = some a) : result = .ok a := by
  cases result with
  | error e => cases h
  | ok b => exact congrArg Except.ok (Option.some.inj h)

/-- The session with which a minimization goes on after a run. -/
def Program.successor (p : Program β) (c : Configuration) (i : Nat) (s : Session τ) : Session τ :=
  let m := p.run (.new i c s)
  (Strategy.prepare (Strategy.onEnd m.scheduler.strategy m.scheduler.outcome).2).2

/-- A minimization that is not over goes on. -/
theorem Program.Minimizes.successor {p : Program β} {c : Configuration} {first s : Session τ}
    {i : Nat} (hs : p.Minimizes c first s)
    (hrun : let m := p.run (.new i c s)
      let closed := Strategy.onEnd m.scheduler.strategy m.scheduler.outcome
      (Machine.step? p m).isNone = true ∧ m.scheduler.error = none ∧ closed.1.isOk = true ∧
        (Strategy.prepare closed.2).1.toOption = some true) :
    p.Minimizes c first (p.successor c i s) := by
  obtain ⟨hended, herror, hclosed, hprepared⟩ := hrun
  exact hs.next ⟨Option.isNone_iff_eq_none.mp hended, herror, eq_ok_of_isOk hclosed⟩
    (Prod.ext (eq_ok_of_toOption hprepared) rfl)

/-- A harness that sends itself three messages and fails. -/
def noisyHarness : Program Nat where
  act
    | _, 0 => .send ⟨0⟩ "Tick" 0 1
    | _, 1 => .send ⟨0⟩ "Note" 0 2
    | _, 2 => .send ⟨0⟩ "Tick" 0 3
    | _, _ => .fail "boom"
  main := 0

/-- A minimization of it in which ticks may be withheld. -/
def noisySession : Session RandomWalk :=
  .ofSchedule #[.schedule ⟨0⟩] {} {} { droppable := ["Tick"] } .always none

/-- A policy under which an operation takes no guide step at its first scheduling point. -/
def lateMatch : MatchPolicy where
  name := "late"
  accepts _ candidate := 1 < candidate.count

/-- A minimization of the noisy harness under that policy. -/
def lateSession : Session RandomWalk :=
  .ofSchedule #[.schedule ⟨0⟩] {} {} { droppable := ["Tick"] } lateMatch none

/-- The operation reaches the guide one step late. Its note meets the withheld tick in the guide,
and so is withheld as well. -/
theorem Program.note_withheld_of_lateMatch :
    ∃ s, noisyHarness.Minimizes {} lateSession s ∧
      ∃ best, s.editor.best = some best ∧
        ¬best.WithheldIn { droppable := ["Tick"] } s.editor.Accepted := by
  let s₁ := noisyHarness.successor {} 0 lateSession
  let s₂ := noisyHarness.successor {} 0 s₁
  let s₃ := noisyHarness.successor {} 0 s₂
  have h₁ : noisyHarness.Minimizes {} lateSession s₁ := .successor .first (by decide +kernel)
  have h₂ : noisyHarness.Minimizes {} lateSession s₂ := h₁.successor (by decide +kernel)
  have h₃ : noisyHarness.Minimizes {} lateSession s₃ := h₂.successor (by decide +kernel)
  have h₄ : noisyHarness.Minimizes {} lateSession (noisyHarness.successor {} 0 s₃) :=
    h₃.successor (by decide +kernel)
  have hnote : ∃ best ∈ (noisyHarness.successor {} 0 s₃).editor.best, 2 ∈ best.withheld ∧
      best.steps[2]?.map (·.isDroppableSend { droppable := ["Tick"] }) = some false := by
    decide +kernel
  obtain ⟨best, hbest, hmarked, hkept⟩ := hnote
  refine ⟨_, h₄, best, hbest, fun hwithheld => ?_⟩
  obtain ⟨step, hstep, hdroppable, -⟩ := hwithheld 2 hmarked
  rw [hstep, Option.map_some, hdroppable] at hkept
  cases hkept

/-- A strategy that names the first enabled operation and is fair from its third run on. -/
structure Wavering where
  runs : Nat

instance : Strategy Wavering where
  nextOperation s choices _ := (.ok ((choices.find? (·.enabled)).map (·.id)), s)
  nextBoolean s _ := (.ok (some false), s)
  nextInteger s _ := (.ok (some 0), s)
  forceOperation s _ _ _ := (.ok (), s)
  forceBoolean s _ _ := (.ok (), s)
  forceInteger s _ _ := (.ok (), s)
  prepare s := (.ok true, ⟨s.runs + 1⟩)
  reset s := s
  steps _ := 0
  boundReached _ := false
  isFair s := 2 ≤ s.runs
  describe _ := "Wavering"

/-- A harness with a hot monitor that sends itself two messages and fails. -/
def uneasyHarness : Program Nat where
  act
    | _, 0 => .monitor "Quiet" true 1
    | _, 1 => .send ⟨0⟩ "Note" 0 2
    | _, 2 => .send ⟨0⟩ "Tick" 0 3
    | _, _ => .fail "boom"
  main := 0

/-- A minimization of it with a suffix that turns fair. -/
def waveringSession : Session Wavering :=
  .ofSchedule #[.schedule ⟨0⟩] {} { livenessThreshold := 1 } { droppable := ["Tick"] } .always
    (some ⟨0⟩)

/-- The trial overheats before it comes to the tick that it is to withhold. -/
theorem Program.trial_overheats_of_wavering :
    ∃ s, uneasyHarness.Minimizes { livenessThreshold := 1 } waveringSession s ∧
      s.editor.phase = .edit ⟨1, 1⟩ ∧ ∃ best, s.editor.best = some best ∧
        ¬best.PartsAt { droppable := ["Tick"] } 1
          (uneasyHarness.run (.new 0 { livenessThreshold := 1 } s)).recordedTree := by
  let s₁ := uneasyHarness.successor { livenessThreshold := 1 } 0 waveringSession
  let s₂ := uneasyHarness.successor { livenessThreshold := 1 } 0 s₁
  have h₁ : uneasyHarness.Minimizes { livenessThreshold := 1 } waveringSession s₁ :=
    .successor .first (by decide +kernel)
  have h₂ : uneasyHarness.Minimizes { livenessThreshold := 1 } waveringSession s₂ :=
    h₁.successor (by decide +kernel)
  have htick : ∃ best ∈ s₂.editor.best, best.steps[2]?.isSome = true ∧
      best.droppables { droppable := ["Tick"] } 2 < 1 ∧
      (uneasyHarness.run (.new 0 { livenessThreshold := 1 } s₂)).recordedTree.steps[2]? = none := by
    decide +kernel
  obtain ⟨best, hbest, hsome, hnumber, hnone⟩ := htick
  refine ⟨s₂, h₂, by decide +kernel, best, hbest, fun hparts => ?_⟩
  obtain ⟨step, hstep⟩ := Option.isSome_iff_exists.mp hsome
  obtain ⟨step', hstep', -⟩ := hparts.steps 2 step hstep hnumber
  rw [hnone] at hstep'
  cases hstep'

/-- An engine with the minimization of the noisy harness that has stopped at the bug twice, and goes
on each time without another preparation. -/
def resumedEngine : Engine (Session RandomWalk) :=
  let once := ((Engine.new {} noisySession).run noisyHarness.harness #[]).2.1
  (once.run noisyHarness.harness #[]).2.1

/-- No cursor has been put on the best tree, and the tick is delivered. -/
theorem Program.trial_delivers_of_resumedEngine :
    let s := resumedEngine.strategy
    s.editor.phase = .edit ⟨1, 1⟩ ∧ ∃ best, s.editor.best = some best ∧
      ¬best.PartsAt { droppable := ["Tick"] } 1 (noisyHarness.run
        (.new resumedEngine.iterations resumedEngine.config s)).recordedTree := by
  intro s
  have htick : ∃ best ∈ s.editor.best, 1 < best.size ∧
      best.droppables { droppable := ["Tick"] } 1 < 1 ∧
      best.droppables { droppable := ["Tick"] } 2 = 1 ∧
      (noisyHarness.run (.new resumedEngine.iterations resumedEngine.config
        s)).recordedTree.isWithheld 1 = false := by
    decide +kernel
  obtain ⟨best, hbest, hsize, hbefore, hnumber, hdelivered⟩ := htick
  refine ⟨by decide +kernel, best, hbest, fun hparts => ?_⟩
  have hwithheld := hparts.withheld 1 hsize hbefore
  rw [hdelivered, hnumber, decide_eq_true rfl, Bool.or_true] at hwithheld
  cases hwithheld

end Interleave
