import Interleave.Proofs.EventTree.HappensBefore
import Interleave.Proofs.Minimization.GuideSteps

/-!
# How a guide is consumed

During a run a cursor is asked for operations and choices, and steps are deleted, in any order. It
asks its policy at most once at a request for an operation, so that a policy that changes its mind
is one that comes with the request.

The steps that become active are collected beside the cursor (`Cursor.takenAll`). They come from two
sources: an operation is found from the position on, a choice by the link of the active step, which
may lie far ahead of the position. In a recorded guide that link leads to the next step of the same
operation (`EventTree.Threaded`), so that of one operation nothing but choices has been taken ahead
of the position. This is what `Cursor.Consumed` says. It is kept by every request, and hence no step
is taken twice (`Cursor.guide_consumed_once`).
-/

namespace Interleave

/-! ## The threads of a guide -/

namespace EventTree

/-- The operation of the step at a place. -/
def source? (t : EventTree) (k : Nat) : Option OperationId :=
  t.steps[k]?.map (·.source)

theorem source?_of_step {t : EventTree} {k : Nat} {step : Step}
    (hstep : t.steps[k]? = some step) : t.source? k = some step.source := by
  rw [source?, hstep, Option.map_some]

/-- The direct link of a step leads to the next one of its operation. -/
def Threaded (t : EventTree) : Prop :=
  ∀ i step j, t.steps[i]? = some step → step.directChild = some j →
    t.IsNext (fun s => s.source = step.source) i j

/-- Along its direct link the operation of a step goes on. -/
theorem Threaded.source?_eq {t : EventTree} (h : t.Threaded) {i j : Nat} {step : Step}
    (hstep : t.steps[i]? = some step) (hlink : step.directChild = some j) :
    t.source? i = t.source? j := by
  obtain ⟨next, hnext, hsame⟩ := (h i step j hstep hlink).holds
  rw [source?_of_step hstep, source?_of_step hnext, hsame]

end EventTree

/-- Whatever calls are made, the direct links of a recording thread it. -/
theorem Recorder.threaded_afterAll (calls : List Call) : (empty.afterAll calls).tree.Threaded := by
  intro i step j hstep hlink
  exact ((accounts_afterAll calls).directChild_iff hstep j).mp hlink

namespace Minimization.Cursor

/-! ## Requests -/

/-- What a cursor is asked and told. Every request for an operation comes with its policy. -/
inductive Request where
  | operation (policy : MatchPolicy) (choices : List Snapshot)
  | choice (boolean : Bool)
  | deletion (index : Nat)

/-- The cursor after a request. -/
def serve (c : Cursor) : Request → Cursor
  | .operation policy choices => (c.nextOperation policy choices).2
  | .choice boolean => (c.nextChoice boolean).2
  | .deletion index => c.delete index

/-- The cursor after requests in a row. -/
def serveAll (c : Cursor) (requests : List Request) : Cursor :=
  requests.foldl serve c

/-- The guide step that becomes active at a request. No step stays active when an operation is asked
for, and a choice changes the active step only if there is an answer. -/
def taken? (c : Cursor) : Request → Option Nat
  | .operation policy choices => (c.nextOperation policy choices).2.active
  | .choice boolean => (c.nextChoice boolean).1.bind fun _ => (c.nextChoice boolean).2.active
  | .deletion _ => none

/-- The guide steps that become active in the course of requests, in order. -/
def takenAll (c : Cursor) : List Request → List Nat
  | [] => []
  | q :: requests => (c.taken? q).toList ++ (c.serve q).takenAll requests

variable {c : Cursor} {guide : EventTree} {taken : List Nat}

/-- A choice is refused and changes nothing, or it is the choice that the active step is linked to,
which becomes active. -/
theorem choice_cases (boolean : Bool) (c : Cursor) :
    (c.taken? (.choice boolean) = none ∧ c.serve (.choice boolean) = c) ∨
      ∃ i active next step, c.active = some i ∧ c.guide.steps[i]? = some active ∧
        active.directChild = some next ∧ c.guide.steps[next]? = some step ∧
        step.kind.isChoice = true ∧ c.taken? (.choice boolean) = some next ∧
        c.serve (.choice boolean) = { c with active := some next } := by
  rw [taken?, serve]
  rcases nextChoice_eq_or boolean c with
    hnone | ⟨i, active, next, step, hactive, hlinked, hlink, hstep, hkind, hsome⟩
  · rw [hnone]
    exact Or.inl ⟨rfl, rfl⟩
  · rw [hsome]
    exact Or.inr ⟨i, active, next, step, hactive, hlinked, hlink, hstep,
      (isChoice_of_isChoiceOf hkind).1, rfl, rfl⟩

/-- No request leads back in the guide. -/
theorem position_le_serve (c : Cursor) (q : Request) : c.position ≤ (c.serve q).position := by
  cases q with
  | operation policy choices => exact (walked_nextOperation policy choices c).onward
  | choice boolean =>
      have hposition : (c.serve (.choice boolean)).position = c.position := by
        rcases choice_cases boolean c with ⟨-, hsame⟩ | ⟨_, _, next, _, -, -, -, -, -, -, hserve⟩
        · rw [hsame]
        · rw [hserve]
      exact Nat.le_of_eq hposition.symm
  | deletion index => exact Nat.le_refl _

theorem position_le_serveAll (c : Cursor) (requests : List Request) :
    c.position ≤ (c.serveAll requests).position := by
  induction requests generalizing c with
  | nil => exact Nat.le_refl _
  | cons q requests ih => exact Nat.le_trans (position_le_serve c q) (ih (c.serve q))

/-! ## What has been consumed -/

/-- The steps of the guide that a cursor has taken, the last one of which may still be active. Those
of one operation are in order. A step may have been taken ahead of the position; then it is a choice
and from the position up to it there are only choices of its operation. -/
structure Consumed (guide : EventTree) (c : Cursor) (taken : List Nat) : Prop where
  same : c.guide = guide
  inside : c.position ≤ guide.size
  ordered : taken.Pairwise fun i j => guide.source? i = guide.source? j → i < j
  ahead : ∀ j ∈ taken, ∀ p step, c.position ≤ p → p ≤ j → guide.steps[p]? = some step →
    guide.source? j = some step.source → step.kind.isChoice = true
  last : ∀ a, c.active = some a → taken.getLast? = some a

/-- At the start the root has been taken. -/
theorem consumed_start (hsize : 0 < guide.size) (cutoff : Option Nat) :
    (start guide cutoff).Consumed guide [0] where
  same := rfl
  inside := hsize
  ordered := List.pairwise_singleton _ 0
  ahead j hj p step hp hle := by
    obtain rfl := List.mem_singleton.mp hj
    have hstart : 1 ≤ p := hp
    omega
  last a ha := by
    cases ha
    rfl

/-- A step taken behind all that has been taken of its operation keeps the order. -/
theorem Consumed.ordered_concat (h : c.Consumed guide taken) {k : Nat}
    (hbehind : ∀ i ∈ taken, guide.source? i = guide.source? k → i < k) :
    (taken ++ [k]).Pairwise fun i j => guide.source? i = guide.source? j → i < j := by
  rw [List.pairwise_append]
  refine ⟨h.ordered, List.pairwise_singleton _ k, ?_⟩
  intro i hi j hj
  obtain rfl := List.mem_singleton.mp hj
  exact hbehind i hi

/-- The active step lies behind all that has been taken of its operation. -/
theorem Consumed.le_active (h : c.Consumed guide taken) {a : Nat} (ha : c.active = some a) :
    a ∈ taken ∧ ∀ i ∈ taken, guide.source? i = guide.source? a → i ≤ a := by
  obtain ⟨before, rfl⟩ := List.getLast?_eq_some_iff.mp (h.last a ha)
  have hordered := (List.pairwise_append.mp h.ordered).2.2
  refine ⟨List.mem_append_right before (List.mem_singleton_self a), ?_⟩
  intro i hi hsame
  rcases List.mem_append.mp hi with hbefore | hlast
  · exact Nat.le_of_lt (hordered i hbefore a (List.mem_singleton_self a) hsame)
  · exact Nat.le_of_eq (List.mem_singleton.mp hlast)

/-- A walk takes a step that is behind all that has been taken of its operation: it is still ahead,
and it is no choice. -/
theorem Consumed.walked {c' : Cursor} (h : c.Consumed guide taken) (hwalked : c.Walked c') :
    c'.Consumed guide (taken ++ c'.active.toList) := by
  obtain ⟨hguide, honward, hinside, htaken⟩ := hwalked
  rw [h.same] at hguide hinside htaken
  have hahead : ∀ j ∈ taken, ∀ p step, c'.position ≤ p → p ≤ j → guide.steps[p]? = some step →
      guide.source? j = some step.source → step.kind.isChoice = true := by
    intro j hj p step hp
    exact h.ahead j hj p step (Nat.le_trans honward hp)
  cases hactive : c'.active with
  | none =>
      rw [Option.toList_none, List.append_nil]
      refine ⟨hguide, hinside h.inside, h.ordered, hahead, ?_⟩
      intro a ha
      rw [hactive] at ha
      cases ha
  | some k =>
      obtain ⟨hle, hposition, step, hstep, hkind⟩ := htaken k hactive
      have hbehind : ∀ i ∈ taken, guide.source? i = guide.source? k → i < k := by
        intro i hi hsame
        refine Nat.lt_of_not_le fun hki => ?_
        rw [EventTree.source?_of_step hstep] at hsame
        have hchoice := h.ahead i hi k step hle hki hstep hsame
        rw [hkind] at hchoice
        cases hchoice
      refine ⟨hguide, hinside h.inside, h.ordered_concat hbehind, ?_, ?_⟩
      · intro j hj p step' hp hpj
        rcases List.mem_append.mp hj with hold | hnew
        · exact hahead j hold p step' hp hpj
        · -- the position is behind the step that is taken now
          obtain rfl := List.mem_singleton.mp hnew
          omega
      · intro a ha
        rw [← ha, hactive]
        exact List.getLast?_concat

/-- The choice that the active step is linked to is the next step of its operation. -/
theorem Consumed.choose (h : c.Consumed guide taken) (hthreaded : guide.Threaded)
    {a next : Nat} {active step : Step} (ha : c.active = some a)
    (hactive : guide.steps[a]? = some active) (hlink : active.directChild = some next)
    (hstep : guide.steps[next]? = some step) (hkind : step.kind.isChoice = true) :
    Consumed guide { c with active := some next } (taken ++ [next]) := by
  obtain ⟨hmem, hle⟩ := h.le_active ha
  have hnext := hthreaded a active next hactive hlink
  have hsame := hthreaded.source?_eq hactive hlink
  refine ⟨h.same, h.inside, h.ordered_concat ?_, ?_, ?_⟩
  · intro i hi hi'
    exact Nat.lt_of_le_of_lt (hle i hi (hi'.trans hsame.symm)) hnext.later
  · intro j hj p step' hp hpj hstep' hsource
    rcases List.mem_append.mp hj with hold | hnew
    · exact h.ahead j hold p step' hp hpj hstep' hsource
    · obtain rfl := List.mem_singleton.mp hnew
      rw [← hsame] at hsource
      -- up to the active step it is as before, and behind it comes nothing before the choice
      rcases Nat.lt_or_ge a p with hap | hpa
      · rcases Nat.lt_or_eq_of_le hpj with hlt | rfl
        · rw [EventTree.source?_of_step hactive, Option.some.injEq] at hsource
          exact absurd hsource.symm (hnext.first p step' hap hlt hstep')
        · rw [hstep] at hstep'
          cases hstep'
          exact hkind
      · exact h.ahead a hmem p step' hp hpa hstep' hsource
  · intro b hb
    cases hb
    exact List.getLast?_concat

/-- Every request keeps the account of what has been consumed. -/
theorem Consumed.serve (h : c.Consumed guide taken) (hthreaded : guide.Threaded) (q : Request) :
    (c.serve q).Consumed guide (taken ++ (c.taken? q).toList) := by
  cases q with
  | operation policy choices => exact h.walked (walked_nextOperation policy choices c)
  | choice boolean =>
      rcases choice_cases boolean c with
        ⟨hnone, hsame⟩ | ⟨i, active, next, step, hi, hactive, hlink, hstep, hkind, htaken, hserve⟩
      · rw [hnone, hsame, Option.toList_none, List.append_nil]
        exact h
      · rw [h.same] at hactive hstep
        rw [htaken, hserve]
        exact h.choose hthreaded hi hactive hlink hstep hkind
  | deletion index =>
      rw [taken?, Option.toList_none, List.append_nil]
      exact ⟨h.same, h.inside, h.ordered, h.ahead, h.last⟩

theorem Consumed.serveAll (h : c.Consumed guide taken) (hthreaded : guide.Threaded)
    (requests : List Request) :
    (c.serveAll requests).Consumed guide (taken ++ c.takenAll requests) := by
  induction requests generalizing c taken with
  | nil =>
      rw [takenAll, List.append_nil]
      exact h
  | cons q requests ih =>
      rw [takenAll, ← List.append_assoc]
      exact ih (h.serve hthreaded q)

/-- No step has been taken twice. -/
theorem Consumed.nodup (h : c.Consumed guide taken) : taken.Nodup := by
  refine h.ordered.imp ?_
  rintro i j hlt rfl
  exact Nat.lt_irrefl i (hlt rfl)

/-- The steps of an operation have been taken in the order of the guide. -/
theorem Consumed.ascending (h : c.Consumed guide taken) (id : OperationId) :
    (taken.filter fun k => guide.source? k = some id).Pairwise (· < ·) := by
  rw [List.pairwise_filter]
  refine h.ordered.imp ?_
  intro i j hlt hi hj
  exact hlt ((of_decide_eq_true hi).trans (of_decide_eq_true hj).symm)

/-- An answer to the request of a choice is that of the next step of the same operation. -/
theorem choice_of_same_operation (hthreaded : c.guide.Threaded) {boolean : Bool} {kind : StepKind}
    (h : (c.nextChoice boolean).1 = some kind) :
    ∃ i active next step, c.active = some i ∧ c.guide.steps[i]? = some active ∧
      (c.nextChoice boolean).2.active = some next ∧ c.guide.steps[next]? = some step ∧
      step.kind = kind ∧ step.source = active.source := by
  rcases nextChoice_eq_or boolean c with
    hnone | ⟨i, active, next, step, hi, hactive, hlink, hstep, -, hsome⟩
  · rw [hnone] at h
    cases h
  · rw [hsome] at h ⊢
    obtain ⟨step', hstep', hsame⟩ := (hthreaded i active next hactive hlink).holds
    rw [hstep] at hstep'
    cases hstep'
    exact ⟨i, active, next, step, hi, hactive, rfl, hstep, Option.some.inj h, hsame⟩

/-! ## Recorded guides -/

theorem consumed_of_recording (recording : List Recorder.Call) (cutoff : Option Nat)
    (requests : List Request) :
    let guide := (Recorder.empty.afterAll recording).tree
    ((start guide cutoff).serveAll requests).Consumed guide
      (0 :: (start guide cutoff).takenAll requests) := by
  intro guide
  have hsize : 0 < guide.size := (Recorder.accounts_afterAll recording).size_pos
  exact (consumed_start hsize cutoff).serveAll (Recorder.threaded_afterAll recording) requests

/-- A recorded guide is consumed once and forwards, whatever is requested and whatever the policies
accept. The position stays inside the guide and never goes back. The active step is the one that has
become active last; no step becomes active twice, not even the root again, and the steps of one
operation become active in their order in the guide. A choice that is handed out is that of a step
of the operation that performed the active step. -/
theorem guide_consumed_once (recording : List Recorder.Call) (cutoff : Option Nat)
    (requests : List Request) :
    let guide := (Recorder.empty.afterAll recording).tree
    let c := (start guide cutoff).serveAll requests
    let taken := 0 :: (start guide cutoff).takenAll requests
    c.position ≤ guide.size ∧ (∀ more, c.position ≤ (c.serveAll more).position) ∧
      (∀ i, c.active = some i → taken.getLast? = some i) ∧ taken.Nodup ∧
      (∀ id, (taken.filter fun k => guide.source? k = some id).Pairwise (· < ·)) ∧
      ∀ boolean kind, (c.nextChoice boolean).1 = some kind →
        ∃ i active next step, c.active = some i ∧ guide.steps[i]? = some active ∧
          (c.nextChoice boolean).2.active = some next ∧ guide.steps[next]? = some step ∧
          step.kind = kind ∧ step.source = active.source := by
  intro guide c taken
  have hconsumed : c.Consumed guide taken := consumed_of_recording recording cutoff requests
  have hthreaded : c.guide.Threaded := hconsumed.same ▸ Recorder.threaded_afterAll recording
  refine ⟨hconsumed.inside, position_le_serveAll c, hconsumed.last, hconsumed.nodup,
    hconsumed.ascending, ?_⟩
  intro boolean kind hkind
  rw [← hconsumed.same]
  exact choice_of_same_operation hthreaded hkind

end Minimization.Cursor

end Interleave
