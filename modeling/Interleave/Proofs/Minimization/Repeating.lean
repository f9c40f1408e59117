import Interleave.Proofs.Minimization.Retracing
import Interleave.Proofs.Program.Requests
import Interleave.Proofs.Program.Unheated

/-!
# Repeating a run

A recorded run and a session that retraces its tree: the session makes the same steps
(`Program.RecordedRun.extends_retraced`), and if it answers at the end of the tree as the run did,
it also comes to the same end (`Program.RecordedRun.repeats`). Only the last words of the run are
not foretold by its tree. There the suffix is asked, if there is one, and has to be obliging.
-/

namespace Interleave

open Minimization

variable {σ τ β : Type}

/-! ## Recorded runs -/

/-- A run is recorded from its start to its end, which it comes to without an error. -/
structure Program.WholeRun [Strategy σ] [Records σ] (p : Program β) (c : Configuration) (i : Nat)
    (a : σ) : Prop where
  empty : Records.recorder a = .empty
  ended : Machine.step? p (p.run (.new i c a)) = none
  error : (p.run (.new i c a)).scheduler.error = none

/-- A run is recorded from its start to its end, which it comes to without an error, and the
fairness of its strategy does not change. -/
structure Program.RecordedRun [Strategy σ] [Records σ] (p : Program β) (c : Configuration) (i : Nat)
    (a : σ) (fair : Bool) : Prop where
  fair : ∀ s, Strategy.Reaches a s → Strategy.isFair s = fair
  empty : Records.recorder a = .empty
  ended : Machine.step? p (p.run (.new i c a)) = none
  error : (p.run (.new i c a)).scheduler.error = none

/-- A run comes to the same end as another one, with the same tree. -/
structure Machine.Repeats [Strategy σ] [Records σ] [Strategy τ] [Records τ] (p : Program β)
    (m : Machine σ β) (m' : Machine τ β) : Prop where
  ended : Machine.step? p m' = none
  error : m'.scheduler.error = none
  tree : m'.recordedTree = m.recordedTree
  bug : m'.scheduler.bug = m.scheduler.bug
  explored : m'.scheduler.fullyExplored = m.scheduler.fullyExplored
  log : m'.log = m.log

/-- The dialogue of a whole run. -/
def Program.said [Strategy σ] (p : Program β) (s : Scheduler σ) : List Exchange :=
  Machine.runSaid p Machine.stepLimit (.start p s)

/-- The course of a recorded run: its operations take turns for `k` steps and then say `l`. -/
structure Program.Course [Strategy σ] [Records σ] (p : Program β) (s : Scheduler σ) (k : Nat)
    (a : OperationId) (l : List Exchange) : Prop where
  limit : k ≤ Machine.stepLimit
  running : (Machine.runFor p k (.start p s)).scheduler.running = true
  path : Turn.Path (.holds .harness) (Machine.runSaid p k (.start p s)) (.holds a)
  said : p.said s = Machine.runSaid p k (.start p s) ++ l
  finishes : Machine.Finishes p (.start p s) Machine.stepLimit k l
  recorder : Records.recorder (p.run s).scheduler.strategy =
    (Records.recorder s.strategy).hearAll (Machine.runSaid p k (.start p s))

section

variable [Strategy σ] [Records σ] {p : Program β} {c : Configuration} {i : Nat} {a : σ}
  {fair : Bool}

theorem Program.RecordedRun.whole (h : p.RecordedRun c i a fair) : p.WholeRun c i a :=
  ⟨h.empty, h.ended, h.error⟩

theorem Program.WholeRun.exists_course (h : p.WholeRun c i a) :
    ∃ k b l, p.Course (.new i c a) k b l := by
  have hwrap : (Machine.start p (.new i c a)).nextOperation.toNat + Machine.stepLimit <
      UInt64.size := by
    show 1 + Machine.stepLimit < UInt64.size
    decide
  obtain ⟨k, b, l, hlimit, hrunning, hpath, hsaid, hfinishes⟩ :=
    Machine.exists_finishes (Machine.at_start p i c a) hwrap h.ended h.error
  refine ⟨k, b, l, hlimit, hrunning, hpath, hsaid, hfinishes, ?_⟩
  have hfollow := Machine.follows_run p Machine.stepLimit (.start p (.new i c a))
  have hrecorder := Records.hearsAll hfollow
  rw [hsaid, Recorder.hearAll_append, hfinishes.hearAll] at hrecorder
  exact hrecorder

variable {k : Nat} {b : OperationId} {l : List Exchange}

/-- The tree has the steps and the marks of the dialogue. -/
theorem Program.Course.same (h : p.WholeRun c i a)
    (hcourse : p.Course (.new i c a) k b l) :
    let r := Recorder.empty.hearAll (Machine.runSaid p k (.start p (.new i c a)))
    (p.run (.new i c a)).recordedTree.steps = r.tree.steps ∧
      (p.run (.new i c a)).recordedTree.withheld = r.tree.withheld := by
  intro r
  have hrecorder : Records.recorder (p.run (.new i c a)).scheduler.strategy = r := by
    rw [hcourse.recorder]
    exact congrArg (Recorder.hearAll · _) h.empty
  unfold Machine.recordedTree
  rw [hrecorder]
  exact r.same_recordEnd _

/-- The tree has one step for each request, and the root. -/
theorem Program.Course.size (h : p.WholeRun c i a)
    (hcourse : p.Course (.new i c a) k b l) :
    (p.run (.new i c a)).recordedTree.size =
      requests (Machine.runSaid p k (.start p (.new i c a))) + 1 := by
  have hsize := size_hearAll_of_path hcourse.path Recorder.sound_empty
  have hroot : Recorder.empty.tree.size = 1 := rfl
  simp only [Turn.isDone, Bool.toNat_true, hroot] at hsize
  have hsteps := congrArg Array.size (hcourse.same h).1
  unfold EventTree.size at hsize ⊢
  omega

/-- The withheld sends of the tree are not linked. -/
theorem Program.Course.unlinked (h : p.WholeRun c i a)
    (hcourse : p.Course (.new i c a) k b l) :
    ∀ index ∈ (p.run (.new i c a)).recordedTree.withheld, ∃ step,
      (p.run (.new i c a)).recordedTree.steps[index]? = some step ∧ step.createdChild = none := by
  obtain ⟨hsteps, hwithheld⟩ := hcourse.same h
  rw [hsteps, hwithheld]
  exact (Recorder.sound_empty.hearAll _).1.withheld

/-- The fairness that a recorded run is told is that of its strategy. -/
theorem Program.RecordedRun.fair_of_mem (h : p.RecordedRun c i a fair) {told : Bool}
    (hmem : .fairness told ∈ p.said (.new i c a)) : told = fair := by
  obtain ⟨s, s', hreaches, hmoves⟩ := mem_of_follows
    (Machine.follows_run p Machine.stepLimit (.start p (.new i c a))) hmem
  rw [← h.fair s hreaches]
  exact hmoves.1.symm

/-- The answers of a recorded run are legal. -/
theorem Program.WholeRun.legal_of_mem (h : p.WholeRun c i a) {e : Exchange}
    (hmem : e ∈ p.said (.new i c a)) : e.Legal :=
  ((Machine.passage_runFor p Machine.stepLimit (.start p (.new i c a))).error h.error).2 e hmem

/-- The last words of a run are those that contain no operation. -/
theorem Program.Course.runsDry (hcourse : p.Course (.new i c a) k b l)
    (hdry : RunsDry (p.said (.new i c a))) : RunsDry l := by
  obtain ⟨choices, current, hmem, hdisabled⟩ := hdry
  rw [hcourse.said] at hmem
  rcases List.mem_append.mp hmem with hpath | hmem
  · exact absurd hpath (hcourse.path.declined_notMem choices current)
  · exact ⟨choices, current, hmem, hdisabled⟩

/-- A recorded run whose bug is another one than the bound, or in which no operation was enabled,
has not been cut off. -/
theorem Program.Course.bound_notMem (hcourse : p.Course (.new i c a) k b l)
    (hshown : (∃ bug ∈ (p.run (.new i c a)).scheduler.bug, bug.kind ≠ .stepBound) ∨
      RunsDry (p.said (.new i c a))) : .bound true ∉ p.said (.new i c a) := by
  intro hmem
  rw [hcourse.said] at hmem
  have hlast : .bound true ∈ l := by
    rcases List.mem_append.mp hmem with hpath | hlast
    · exact absurd hpath hcourse.path.bound_notMem
    · exact hlast
  -- the only ending with these words is the cut, which shows nothing but the bound
  have hdry := hcourse.runsDry
  cases hcourse.finishes with
  | cut bug =>
      rcases hshown with ⟨found, hfound, hkind⟩ | hsaid
      · exact hkind (bug found hfound)
      · obtain ⟨choices, current, hmem, -⟩ := hdry hsaid
        simp at hmem
  | undecided bug value => rcases value with ⟨max, rfl⟩ | ⟨max, rfl⟩ <;> simp at hlast
  | silent => simp at hlast
  | declined => simp at hlast
  | overheated => simp at hlast

theorem Program.Course.requests_said_le (h : p.WholeRun c i a)
    (hcourse : p.Course (.new i c a) k b l) :
    requests (p.said (.new i c a)) ≤ (p.run (.new i c a)).recordedTree.size := by
  have hlast := hcourse.finishes.requests_le
  rw [hcourse.size h, hcourse.said, requests_append]
  omega

variable {r : Session τ}

/-- A session that is not cut off within the tree of a recorded run has the bound of the run, unless
the run has been cut off itself. -/
theorem Program.WholeRun.bounds (h : p.WholeRun c i a)
    (hshown : (∃ bug ∈ (p.run (.new i c a)).scheduler.bug, bug.kind ≠ .stepBound) ∨
      RunsDry (p.said (.new i c a)))
    (hcut : ∀ steps ≤ (p.run (.new i c a)).recordedTree.size, r.cutsAt steps = false) :
    r.Bounds (p.said (.new i c a)) := by
  obtain ⟨k, b, l, hcourse⟩ := h.exists_course
  refine Session.bounds_of_le (hcourse.bound_notMem hshown) fun steps hle => ?_
  exact hcut steps (Nat.le_trans hle (hcourse.requests_said_le h))

/-- The tree of a recorded run has fewer steps than there are numbers of 64 bits. -/
theorem Program.WholeRun.size_lt (h : p.WholeRun c i a) :
    (p.run (.new i c a)).recordedTree.size < UInt64.size := by
  -- one step of the tree for each request, and one request at most for each step of the run
  obtain ⟨k, b, l, hcourse⟩ := h.exists_course
  have hrequests := Machine.requests_runSaid_le p Machine.stepLimit (.start p (.new i c a))
  have hsaid := congrArg requests hcourse.said
  rw [requests_append] at hsaid
  have hlimit : Machine.stepLimit + 1 < UInt64.size := by decide
  rw [hcourse.size h]
  unfold said at hsaid
  omega

variable [Strategy τ]

/-- A session that is guided by the tree follows the run in all but fairness, if it is not cut off
earlier and as long as its candidate withholds nothing more. Its own fairness stays the same, as the
suffix is not asked. -/
theorem Program.Course.guided (h : p.WholeRun c i a) (hcourse : p.Course (.new i c a) k b l)
    (hguided : r.Guided (p.run (.new i c a)).recordedTree) {l₁ l₂ : List Exchange}
    (hsplit : Machine.runSaid p k (.start p (.new i c a)) = l₁ ++ l₂)
    (hcut : ∀ l₃ l₄, l₁ = l₃ ++ .bound false :: l₄ → r.cutsAt (requests l₃) = false)
    (hspares : r.Spares (Editor.countDroppable r.editor.settings
      (Recorder.empty.hearAll l₁).tree)) :
    ∃ turn s, Follows r (l₁.map (·.withFairness (r.suffix.any Strategy.isFair))) s ∧
      Session.Aligned r (p.run (.new i c a)).recordedTree turn s ∧
      Turn.Path turn l₂ (.holds b) := by
  obtain ⟨hsteps, hwithheld⟩ := hcourse.same h
  have hpath := hcourse.path
  rw [hsplit] at hpath hsteps hwithheld
  obtain ⟨middle, hfirst, hsecond⟩ := hpath.split
  have hpath := (hfirst.withFairness (r.suffix.any Strategy.isFair)).append hsecond
  refine hguided.aligned.follows hpath ?_ (hcourse.unlinked h) ?_ ?_ ?_
  · rw [hguided.recorder, Recorder.hearAll_append, Recorder.hearAll_withFairness,
      ← Recorder.hearAll_append]
    exact .of_eq hsteps hwithheld
  · rw [hguided.recorder, Recorder.hearAll_withFairness]
    exact hspares
  · intro l₃ l₄ hl
    obtain ⟨l₃', l₄', rfl, rfl, hl₄⟩ := List.map_eq_append_iff.mp hl
    obtain ⟨e, l₅, rfl, he, rfl⟩ := List.map_eq_cons_iff.mp hl₄
    rw [hguided.steps, Nat.zero_add, requests_withFairness]
    refine hcut l₃' l₅ ?_
    cases e <;> cases he
    rfl
  · intro fair' hmem
    obtain ⟨e, -, he⟩ := List.mem_map.mp hmem
    cases e <;> cases he
    rfl

/-- A session that is not cut off earlier makes the steps of the tree that it retraces. -/
theorem Program.Course.retraced (h : p.RecordedRun c i a fair)
    (hcourse : p.Course (.new i c a) k b l)
    (hretraces : r.Retraces (p.run (.new i c a)).recordedTree)
    (hfair : r.suffix.any Strategy.isFair = fair)
    (hcut : ∀ l₁ l₂, Machine.runSaid p k (.start p (.new i c a)) = l₁ ++ .bound false :: l₂ →
      r.cutsAt (requests l₁) = false) :
    ∃ s, Follows r (Machine.runSaid p k (.start p (.new i c a))) s ∧
      Session.Aligned r (p.run (.new i c a)).recordedTree (.holds b) s := by
  have hsplit : Machine.runSaid p k (.start p (.new i c a)) =
      Machine.runSaid p k (.start p (.new i c a)) ++ [] := (List.append_nil _).symm
  obtain ⟨turn, s, hfollows, haligned, hpath⟩ := hcourse.guided h.whole hretraces.guided hsplit
    hcut (hretraces.spares _)
  -- the fairness that the run has been told is that of the session
  rw [hfair, map_withFairness_of_told fun told hmem => h.fair_of_mem (by
    rw [hcourse.said]
    exact List.mem_append_left l hmem)] at hfollows
  cases hpath
  exact ⟨s, hfollows, haligned⟩

/-- What has been recorded in the middle of a run stays in its tree. -/
theorem Machine.extends_recordedTree [Records τ] (p : Program β) (n : Nat) {m : Machine τ β}
    (hsound : (Records.recorder m.scheduler.strategy).Sound) :
    (Records.recorder m.scheduler.strategy).tree.Extends (runFor p n m).recordedTree := by
  have hgrown := (hsound.hearAll (runSaid p n m)).2
  rw [← Records.hearsAll (follows_run p n m)] at hgrown
  have hend := Recorder.same_recordEnd (Records.recorder (runFor p n m).scheduler.strategy)
    ((runFor p n m).scheduler.bug.map (·.kind))
  exact hgrown.trans (.of_eq hend.1 hend.2)

/-- Where a session has recorded what a run has up to its last words, its first steps are those of
the tree of the run. -/
theorem Program.Course.extends_run (h : p.WholeRun c i a) (hcourse : p.Course (.new i c a) k b l)
    {j : Nat} (hmiddle : (Machine.runFor p k (.start p (.new j c r))).scheduler.strategy.recorder =
      Recorder.empty.hearAll (Machine.runSaid p k (.start p (.new i c a)))) :
    (p.run (.new i c a)).recordedTree.Extends (p.run (.new j c r)).recordedTree := by
  obtain ⟨hsteps, hwithheld⟩ := hcourse.same h
  let m := Machine.runFor p k (.start p (.new j c r))
  have hrun : p.run (.new j c r) = Machine.runFor p (Machine.stepLimit - k) m := by
    show Machine.runFor p Machine.stepLimit _ = _
    rw [← Machine.runFor_add, Nat.add_sub_of_le hcourse.limit]
  have hmiddle : Records.recorder m.scheduler.strategy = _ := hmiddle
  have hsound := (Recorder.sound_empty.hearAll
    (Machine.runSaid p k (.start p (.new i c a)))).1
  rw [← hmiddle] at hsound
  -- what it records from there on only adds to this
  have hgrown := Machine.extends_recordedTree p (Machine.stepLimit - k) hsound
  rw [hmiddle, ← hrun] at hgrown
  exact (EventTree.Extends.of_eq hsteps.symm hwithheld.symm).trans hgrown

/-- A session that says the same up to its last words makes the same run. -/
theorem Program.Course.rehosted (hcourse : p.Course (.new i c a) k b l) {s s' : Session τ}
    (hfollows : Follows r (Machine.runSaid p k (.start p (.new i c a))) s)
    (hlast : Follows s l s') (j : Nat) :
    ∃ schedule : Schedule,
      p.run (.new j c r) = (p.run (.new i c a)).rehost (Equiv.swap i j) s' schedule := by
  have hfollow : Follows r (p.said (.new i c a)) s' := by
    rw [hcourse.said]
    exact follows_append.mpr ⟨s, hfollows, hlast⟩
  exact ⟨_, Machine.runFor_start_rehost p Machine.stepLimit c i j hfollow⟩

/-- A session that is in step at the end of the tree comes to the same end, whatever operation it
names where a monitor is too hot. -/
theorem Program.Course.exists_end (h : p.RecordedRun c i a fair)
    (hcourse : p.Course (.new i c a) k b l) {guide : EventTree} {s : Session τ}
    (hfollows : Follows r (Machine.runSaid p k (.start p (.new i c a))) s)
    (haligned : Session.Aligned r guide (.holds b) s) (hend : guide.size ≤ s.steps + 1)
    (hfair : r.suffix.any Strategy.isFair = fair)
    (hbounds : ∀ reached l₂, l = .bound reached :: l₂ → r.cutsAt s.steps = reached)
    (hobliging : l ≠ [] → ∀ t ∈ r.suffix, Strategy.Obliging t)
    (hshown : l ≠ [] → (p.run (.new i c a)).scheduler.bug ≠ none ∨ RunsDry l) (j : Nat) :
    ∃ (s' : Session τ) (schedule : Schedule),
      p.run (.new j c r) = (p.run (.new i c a)).rehost (Equiv.swap i j) s' schedule ∧
        s'.recorder = s.recorder := by
  have hsaid := hcourse.said
  have hfinishes := hcourse.finishes
  have htold : ∀ told, .fairness told ∈ l → told = fair := fun told hmem =>
    h.fair_of_mem (by rw [hsaid]; exact List.mem_append_right _ hmem)
  -- the session answers the two questions that come with every ending as the run has been told
  have hbound : ∀ reached l₂, l = .bound reached :: l₂ → Strategy.boundReached s = reached := by
    intro reached l₂ hl
    rw [← hbounds reached l₂ hl]
    show (0 < s.maxSteps && s.maxSteps < s.steps) = _
    rw [haligned.maxSteps]
    rfl
  have hfair' : ∀ s' : Session τ, s'.suffix.any Strategy.isFair = s.suffix.any Strategy.isFair →
      Strategy.isFair s' = fair := by
    intro s' hsuffix
    rw [haligned.suffix, hfair] at hsuffix
    exact hsuffix
  have hwhole : ∀ s', Follows s l s' → ∃ (s' : Session τ) (schedule : Schedule),
      p.run (.new j c r) = (p.run (.new i c a)).rehost (Equiv.swap i j) s' schedule ∧
        s'.recorder = s.recorder := by
    intro s' hlast
    obtain ⟨schedule, hrun⟩ := hcourse.rehosted hfollows hlast j
    exact ⟨s', schedule, hrun,
      (Session.heard_of_follows hlast).recorder.trans (hfinishes.hearAll _)⟩
  cases hfinishes with
  | silent => exact hwhole s rfl
  | @cut told bug =>
      refine hwhole s ⟨s, ⟨hbound _ _ rfl, rfl⟩, s, ⟨?_, rfl⟩, rfl⟩
      rw [hfair' s rfl, htold told (by simp)]
  | @declined choices current told bug =>
      -- nothing was enabled, so that the session cannot name an operation either
      have hdisabled : ∀ op ∈ choices, op.enabled = false := by
        rcases hshown (List.cons_ne_nil _ _) with hbug | ⟨choices', current', hmem, hdisabled⟩
        · obtain ⟨found, hfound⟩ := Option.ne_none_iff_exists'.mp hbug
          exact (bug found hfound).2
        · simp only [List.mem_cons, List.not_mem_nil, or_false, reduceCtorEq, false_or,
            Exchange.operation.injEq, and_true] at hmem
          rw [← hmem.1]
          exact hdisabled
      obtain ⟨answer, s', hask, hlegal, -, hsuffix⟩ :=
        haligned.obliges hend (hobliging (List.cons_ne_nil _ _)) choices current
      rw [Exchange.answer_eq_none hlegal hdisabled] at hask
      refine hwhole s' ⟨s, ⟨hbound _ _ rfl, rfl⟩, s', hask, s', ⟨?_, rfl⟩, rfl⟩
      rw [hfair' s' (by rw [hsuffix, haligned.suffix]), htold told (by simp)]
  | @undecided e bug value =>
      -- such a run has neither a bug nor run dry
      rcases hshown (List.cons_ne_nil _ _) with hbug | ⟨choices', current', hmem, -⟩
      · exact absurd bug hbug
      · rcases value with ⟨max, rfl⟩ | ⟨max, rfl⟩ <;> simp at hmem
  | @overheated thread m' choices d told ready overheats rest silent before bug =>
      -- an operation was enabled, so that an obliging session names one, be it another
      have hlegal : (Exchange.operation choices thread.token.operation (.ok (some d))).Legal :=
        h.whole.legal_of_mem (by rw [hsaid]; simp)
      obtain ⟨id?, hid?, hid⟩ := hlegal
      cases hid?
      obtain ⟨op, hop, -, henabled⟩ := hid d rfl
      obtain ⟨answer, s', hask, hlegal, hdecided, hsuffix⟩ :=
        haligned.obliges hend (hobliging (List.cons_ne_nil _ _)) choices thread.token.operation
      obtain ⟨d', rfl, hlegal'⟩ := Exchange.exists_answer hlegal hdecided ⟨op, hop, henabled⟩
      have hlast : Follows s [.bound false,
          .operation choices thread.token.operation (.ok (some d')), .logged (.schedule d'),
          .fairness told] s' := by
        refine ⟨s, ⟨hbound _ _ rfl, rfl⟩, s', hask, s', rfl, s', ⟨?_, rfl⟩, rfl⟩
        rw [hfair' s' (by rw [hsuffix, haligned.suffix]), htold told (by simp)]
      obtain ⟨schedule, hrun⟩ := overheats.exists_rehost ready before rest silent hfollows hlegal'
        hlast j
      exact ⟨s', schedule, hrun, (Session.heard_of_follows hlast).recorder⟩

/-- A run with the result and the tree of another one. -/
theorem Machine.repeats_rehost {m : Machine σ β} (hended : Machine.step? p m = none)
    (herror : m.scheduler.error = none) (f : Equiv.Perm Nat) (schedule : Schedule)
    (hrecorder : r.recorder = Records.recorder m.scheduler.strategy) :
    Machine.Repeats p m (m.rehost f r schedule) where
  ended := (Machine.step?_rehost_eq_none f r schedule).mpr hended
  error := herror
  tree := by
    show (r.recorder.recordEnd _).tree = _
    rw [hrecorder]
    rfl
  bug := rfl
  explored := rfl
  log := rfl

/-- A session that retraces the tree of a recorded run under the same bound comes to the same end if
the run has come to a bug or if no operation was enabled. Only an assertion does without an obliging
suffix. -/
theorem Program.RecordedRun.repeats (h : p.RecordedRun c i a fair)
    (hretraces : r.Retraces (p.run (.new i c a)).recordedTree)
    (hfair : r.suffix.any Strategy.isFair = fair) (hbounds : r.Bounds (p.said (.new i c a)))
    (hobliging : (p.run (.new i c a)).scheduler.bug.map (·.kind) ≠ some .assertion →
      ∀ t ∈ r.suffix, Strategy.Obliging t)
    (hshown : (p.run (.new i c a)).scheduler.bug ≠ none ∨ RunsDry (p.said (.new i c a)))
    (j : Nat) : Machine.Repeats p (p.run (.new i c a)) (p.run (.new j c r)) := by
  obtain ⟨k, b, l, hcourse⟩ := h.whole.exists_course
  obtain ⟨s, hfollows, haligned⟩ := hcourse.retraced h hretraces hfair fun l₁ l₂ hl =>
    hbounds l₁ false (l₂ ++ l) (by rw [hcourse.said, hl]; simp)
  have hheard := Session.heard_of_follows hfollows
  have hsteps : s.steps = requests (Machine.runSaid p k (.start p (.new i c a))) := by
    rw [hheard.steps, hretraces.steps, Nat.zero_add]
  have hend : (p.run (.new i c a)).recordedTree.size ≤ s.steps + 1 := by
    have hsize := hcourse.size h.whole
    omega
  obtain ⟨s', schedule, hrun, hrecorder⟩ := hcourse.exists_end h hfollows haligned hend hfair
    (fun reached l₂ hl => by
      rw [hsteps]
      exact hbounds _ reached l₂ (by rw [hcourse.said, hl]))
    (fun hl => hobliging fun hbug => hl (hcourse.finishes.eq_nil_of_assertion hbug))
    (fun _ => hshown.imp_right hcourse.runsDry) j
  rw [hrun]
  refine Machine.repeats_rehost h.ended h.error _ schedule ?_
  rw [hrecorder, hheard.recorder, hretraces.recorder, hcourse.recorder]
  exact (congrArg (Recorder.hearAll · _) h.empty).symm

/-- A session that is not cut off within the tree of a recorded run starts with the steps of the
tree. -/
theorem Program.RecordedRun.extends_retraced (h : p.RecordedRun c i a fair)
    (hretraces : r.Retraces (p.run (.new i c a)).recordedTree)
    (hfair : r.suffix.any Strategy.isFair = fair)
    (hcut : ∀ steps ≤ (p.run (.new i c a)).recordedTree.size, r.cutsAt steps = false) (j : Nat) :
    (p.run (.new i c a)).recordedTree.Extends (p.run (.new j c r)).recordedTree := by
  obtain ⟨k, b, l, hcourse⟩ := h.whole.exists_course
  obtain ⟨s, hfollows, -⟩ := hcourse.retraced h hretraces hfair fun l₁ l₂ hl => by
    -- so far the run has made no more requests than in all
    refine hcut _ (Nat.le_trans ?_ (hcourse.requests_said_le h.whole))
    rw [hcourse.said, hl, requests_append, requests_append, Nat.add_assoc]
    exact Nat.le_add_right _ _
  refine hcourse.extends_run h.whole ?_
  rw [Machine.runFor_start_rehost p k c i j hfollows]
  exact (Records.hearsAll hfollows).trans (congrArg (Recorder.hearAll · _) hretraces.recorder)

end

end Interleave
