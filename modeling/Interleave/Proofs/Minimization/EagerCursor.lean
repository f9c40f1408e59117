import Interleave.Minimization.Editor
import Interleave.Proofs.EventTree.HappensBefore
import Interleave.Proofs.EventTree.Roster
import Interleave.Proofs.Minimization.GuideSteps
import Mathlib.Data.Set.Basic

/-!
# Deleting at once

A cursor deletes lazily: a deleted step hands the deletion on to the steps that it leads to only
when the cursor passes it. An `EagerCursor` removes a step with all its descendants at once, and
goes straight to the first step that can be taken. In a guide that has been recorded, where links
lead forward and a choice follows on one step only (`EventTree.Woven`), both are in step whatever
they are asked (`Cursor.Mirrors`): what the lazy cursor has deleted behind its position has been
handed on, and nothing behind its position is ever deleted. So they give the same answers
(`Cursor.lazy_deletion_is_eager`).
-/

namespace Interleave

/-! ## Guides -/

namespace EventTree

/-- The links of a recorded tree: they lead forward, no step follows on two others, and no choice is
brought about by another step. -/
structure Woven (t : EventTree) : Prop where
  forward : ∀ i j, t.Leads i j → i < j
  follows : ∀ i i' j, t.directChild? i = some j → t.directChild? i' = some j → i = i'
  brought : ∀ i j step, t.createdChild? i = some j → t.steps[j]? = some step →
    step.kind.isChoice = false

theorem Woven.le_of_descends {t : EventTree} (h : t.Woven) {i j : Nat}
    (hdescends : Relation.ReflTransGen t.Leads i j) : i ≤ j := by
  induction hdescends with
  | refl => exact Nat.le_refl i
  | tail _ hleads ih => exact Nat.le_trans ih (Nat.le_of_lt (h.forward _ _ hleads))

/-- The step of the given index, unless it is a choice, with the enabled operation that takes it. -/
def offer? (t : EventTree) (choices : List Snapshot) (j : Nat) : Option (Step × Snapshot) :=
  (t.steps[j]?.filter fun step => !step.kind.isChoice).bind fun step =>
    (choices.find? fun op => op.enabled && op.id = step.source).map fun op => (step, op)

end EventTree

/-- Whatever calls are made, the links of a recording are woven. -/
theorem Recorder.Accounts.woven {r : Recorder} {cut : Cause → Nat → Prop} (h : r.Accounts cut) :
    r.tree.Woven where
  forward i j := by
    rintro (hdirect | hcreated)
    · exact (h.succession.forward hdirect).1
    · exact (h.causation.forward hcreated).1
  follows i i' j hi hi' := h.succession.left_unique hi hi'
  brought i j step hcreated hstep := by
    -- the linked step is one that has a cause, and only starts and receives have one
    obtain ⟨x, hjoins⟩ := (h.causation.link i j).mp hcreated
    obtain ⟨a, ha, hcause⟩ := hjoins.closed
    obtain rfl := Option.some.inj ((EventTree.getElem?_happenings_of_step hstep).symm.trans ha)
    cases x with
    | creation created =>
        have hkind : step.kind = .start := (Happening.cause?_eq_creation_iff.mp hcause).1
        rw [hkind]
        rfl
    | delivery m =>
        have hkind : step.kind = .receive := (Happening.cause?_eq_delivery_iff.mp hcause).1
        rw [hkind]
        rfl

namespace Minimization

/-! ## The eager cursor -/

/-- A place in a guide tree, with all the steps that are not to be taken any more. -/
structure EagerCursor where
  guide : EventTree
  /-- The next guide step, or none for good behind the last one. -/
  position : Option Nat
  /-- The guide step that the running operation is taking, if it takes one. -/
  active : Option Nat
  removed : Set Nat
  /-- The last step that may be followed. -/
  cutoff : Option Nat

namespace EagerCursor

/-- The cursor behind the root, which is being taken. -/
def start (guide : EventTree) (cutoff : Option Nat) : EagerCursor :=
  ⟨guide, some 1, some 0, ∅, cutoff⟩

open scoped Classical in
/-- What can be done at the step of the given index, if it may be followed and is not removed. -/
noncomputable def serve? (e : EagerCursor) (choices : List Snapshot) (j : Nat) :
    Option (Nat × Step × Snapshot) :=
  if (∀ last ∈ e.cutoff, j ≤ last) ∧ j ∉ e.removed then
    (e.guide.offer? choices j).map fun offer => (j, offer)
  else none

/-- The first step from the position on that can be served. -/
noncomputable def found? (e : EagerCursor) (choices : List Snapshot) :
    Option (Nat × Step × Snapshot) :=
  e.position.bind fun p => (List.range' p (e.guide.size - p)).findSome? (e.serve? choices)

/-- The cursor that takes the given step. -/
def takeAt (e : EagerCursor) (j : Nat) : EagerCursor :=
  { e with position := some (j + 1), active := some j }

/-- The cursor that stays at the given step and takes none. -/
def waitAt (e : EagerCursor) (j : Nat) : EagerCursor :=
  { e with position := some j, active := none }

/-- The cursor for which the guide has ended for good. -/
def ended (e : EagerCursor) : EagerCursor :=
  { e with position := none, active := none }

/-- The enabled operation that takes the next step that can be served. If the policy does not accept
the operation, no step is taken and the guide stays there. Without such a step there is no operation
any more. -/
noncomputable def nextOperation (policy : MatchPolicy) (choices : List Snapshot)
    (e : EagerCursor) : Option OperationId × EagerCursor :=
  match e.found? choices with
  | none => (none, e.ended)
  | some (j, step, op) =>
    (some step.source, if policy.accepts step op then e.takeAt j else e.waitAt j)

/-- The guide step being taken. -/
def activeStep? (e : EagerCursor) : Option Step :=
  e.active.bind fun i => e.guide.steps[i]?

open scoped Classical in
/-- The choice that follows the step being taken, if it is of the requested type and not removed. -/
noncomputable def nextChoice (boolean : Bool) (e : EagerCursor) : Option StepKind × EagerCursor :=
  match e.activeStep?.bind (·.directChild) with
  | none => (none, e)
  | some next =>
    match e.guide.steps[next]? with
    | none => (none, e)
    | some step =>
      if Cursor.isChoiceOf boolean step.kind ∧ next ∉ e.removed then
        (some step.kind, { e with active := some next })
      else (none, e)

/-- The step that a send brings about, if a send is being taken. -/
def sent? (e : EagerCursor) : Option Nat :=
  (e.activeStep?.filter (·.kind = .send)).bind (·.createdChild)

/-- The cursor without the receive of the send that is being taken, and without all that follows
from it. -/
def withhold (e : EagerCursor) : EagerCursor :=
  match e.sent? with
  | some receive =>
    { e with removed := e.removed ∪ {j | Relation.ReflTransGen e.guide.Leads receive j} }
  | none => e

end EagerCursor

/-! ## Calls -/

namespace Cursor

/-- The cursor after the send that is being taken has been withheld. -/
def withhold (c : Cursor) : Cursor :=
  c.deleteLink ((Editor.guideSend? c).bind (·.createdChild))

/-- What a cursor is asked and told during a run. -/
inductive Call where
  | nextOperation (choices : List Snapshot)
  | nextChoice (boolean : Bool)
  | withhold

/-- The cursor after one call. -/
def after (policy : MatchPolicy) (c : Cursor) : Call → Cursor
  | .nextOperation choices => (c.nextOperation policy choices).2
  | .nextChoice boolean => (c.nextChoice boolean).2
  | .withhold => c.withhold

/-- The cursor after a sequence of calls. -/
def afterAll (policy : MatchPolicy) (c : Cursor) (calls : List Call) : Cursor :=
  calls.foldl (after policy) c

end Cursor

namespace EagerCursor

/-- The eager cursor after one call. -/
noncomputable def after (policy : MatchPolicy) (e : EagerCursor) : Cursor.Call → EagerCursor
  | .nextOperation choices => (e.nextOperation policy choices).2
  | .nextChoice boolean => (e.nextChoice boolean).2
  | .withhold => e.withhold

/-- The eager cursor after a sequence of calls. -/
noncomputable def afterAll (policy : MatchPolicy) (e : EagerCursor) (calls : List Cursor.Call) :
    EagerCursor :=
  calls.foldl (after policy) e

/-- The guide stays the same. -/
theorem guide_after (policy : MatchPolicy) (e : EagerCursor) (call : Cursor.Call) :
    (e.after policy call).guide = e.guide := by
  cases call with
  | nextOperation choices =>
      simp only [after, nextOperation]
      split
      · rfl
      · dsimp only
        split <;> rfl
  | nextChoice boolean =>
      simp only [after, nextChoice]
      split
      · rfl
      · split
        · rfl
        · split <;> rfl
  | withhold =>
      simp only [after, withhold]
      split <;> rfl

theorem guide_afterAll (policy : MatchPolicy) (e : EagerCursor) (calls : List Cursor.Call) :
    (e.afterAll policy calls).guide = e.guide := by
  induction calls generalizing e with
  | nil => rfl
  | cons call calls ih => exact (ih (e.after policy call)).trans (guide_after policy e call)

end EagerCursor

/-! ## Handing deletions on -/

namespace Cursor

/-- The removed steps: with a step all that it leads to is removed, and each of them is either led
to by another one or has been brought about. -/
structure Removal (guide : EventTree) (removed : Set Nat) : Prop where
  closed : ∀ i j, i ∈ removed → guide.Leads i j → j ∈ removed
  caused : ∀ j ∈ removed, (∃ i, guide.createdChild? i = some j) ∨
    ∃ i ∈ removed, guide.Leads i j

/-- With a step its descendants are removed. -/
theorem Removal.of_descends {guide : EventTree} {removed : Set Nat} (h : Removal guide removed)
    {i j : Nat} (hdescends : Relation.ReflTransGen guide.Leads i j) (hi : i ∈ removed) :
    j ∈ removed := by
  induction hdescends with
  | refl => exact hi
  | tail _ hleads ih => exact h.closed _ _ ih hleads

/-- A step that has been brought about can be removed together with its descendants. -/
theorem Removal.union {guide : EventTree} {removed : Set Nat} (h : Removal guide removed)
    {a next : Nat} (hcreated : guide.createdChild? a = some next) :
    Removal guide (removed ∪ {j | Relation.ReflTransGen guide.Leads next j}) := by
  constructor
  · rintro i j (hold | hnew) hleads
    · exact Or.inl (h.closed i j hold hleads)
    · exact Or.inr (hnew.tail hleads)
  · rintro j (hold | hnew)
    · refine (h.caused j hold).imp_right ?_
      rintro ⟨i, hi, hleads⟩
      exact ⟨i, Or.inl hi, hleads⟩
    · rcases Relation.ReflTransGen.cases_tail hnew with rfl | ⟨i, hi, hleads⟩
      · exact Or.inl ⟨a, hcreated⟩
      · exact Or.inr ⟨i, Or.inr hi, hleads⟩

/-- The lazy deletions of a cursor stand for the removed steps: all that is deleted is removed, the
removed steps behind the position are deleted and have handed the deletion on, and a removed step is
deleted unless another one still has to hand the deletion on to it. -/
structure Covers (c : Cursor) (removed : Set Nat) : Prop where
  deleted : ∀ j ∈ c.deleted, j ∈ removed
  passed : ∀ i ∈ removed, i < c.position →
    i ∈ c.deleted ∧ ∀ j, c.guide.Leads i j → j ∈ c.deleted
  pending : ∀ j ∈ removed, j ∈ c.deleted ∨ ∃ i ∈ removed, c.guide.Leads i j

variable {c : Cursor} {removed : Set Nat}

/-- At its position a cursor knows whether the step is removed. -/
theorem Covers.isDeleted_iff (h : c.Covers removed) (hwoven : c.guide.Woven) :
    c.isDeleted c.position = true ↔ c.position ∈ removed := by
  simp only [isDeleted, List.contains_iff_mem]
  constructor
  · intro hdeleted
    exact h.deleted _ hdeleted
  · intro hremoved
    rcases h.pending _ hremoved with hdeleted | ⟨i, hi, hleads⟩
    · exact hdeleted
    · -- links lead forward, so that the other step has been passed
      exact (h.passed i hi (hwoven.forward i _ hleads)).2 _ hleads

/-- A step that is not removed can be passed as it is. -/
theorem Covers.advance (h : c.Covers removed) (hkept : c.position ∉ removed) :
    c.advance.Covers removed where
  deleted := h.deleted
  passed i hi hlt := by
    have hne : i ≠ c.position := by
      rintro rfl
      exact hkept hi
    have hlt : i < c.position + 1 := hlt
    exact h.passed i hi (by omega)
  pending := h.pending

theorem cutoff_deleteLink (c : Cursor) (link : Option Nat) :
    (c.deleteLink link).cutoff = c.cutoff := by
  cases link <;> rfl

theorem mem_deleted_passDeleted {step : Step} {j : Nat}
    (hstep : c.guide.steps[c.position]? = some step) :
    j ∈ (c.passDeleted step).deleted ↔ c.guide.Leads c.position j ∨ j ∈ c.deleted := by
  have hleads : c.guide.Leads c.position j ↔
      step.directChild = some j ∨ step.createdChild = some j := by
    simp [EventTree.Leads, EventTree.directChild?, EventTree.createdChild?, hstep]
  show j ∈ ((c.deleteLink step.directChild).deleteLink step.createdChild).deleted ↔ _
  rw [mem_deleted_deleteLink, mem_deleted_deleteLink, hleads]
  constructor
  · rintro (hcreated | hdirect | hdeleted)
    · exact Or.inl (Or.inr hcreated)
    · exact Or.inl (Or.inl hdirect)
    · exact Or.inr hdeleted
  · rintro ((hdirect | hcreated) | hdeleted)
    · exact Or.inr (Or.inl hdirect)
    · exact Or.inl hcreated
    · exact Or.inr (Or.inr hdeleted)

/-- A removed step hands the deletion on when it is passed. -/
theorem Covers.passDeleted (h : c.Covers removed) (hremoval : Removal c.guide removed)
    {step : Step} (hstep : c.guide.steps[c.position]? = some step)
    (hdeleted : c.position ∈ c.deleted) : (c.passDeleted step).Covers removed := by
  have hguide := guide_passDeleted c step
  have hposition := position_passDeleted c step
  have hremoved := h.deleted _ hdeleted
  constructor
  · intro j hj
    rcases (mem_deleted_passDeleted hstep).mp hj with hleads | hold
    · exact hremoval.closed _ j hremoved hleads
    · exact h.deleted j hold
  · intro i hi hlt
    rw [hposition] at hlt
    rw [hguide]
    -- the step at the position hands the deletion on now, those behind it have done so
    rcases Nat.lt_succ_iff_lt_or_eq.mp hlt with hbehind | rfl
    · obtain ⟨hmem, hon⟩ := h.passed i hi hbehind
      exact ⟨(mem_deleted_passDeleted hstep).mpr (Or.inr hmem),
        fun j hj => (mem_deleted_passDeleted hstep).mpr (Or.inr (hon j hj))⟩
    · exact ⟨(mem_deleted_passDeleted hstep).mpr (Or.inr hdeleted),
        fun j hj => (mem_deleted_passDeleted hstep).mpr (Or.inl hj)⟩
  · intro j hj
    rw [hguide]
    refine (h.pending j hj).imp_left ?_
    intro hold
    exact (mem_deleted_passDeleted hstep).mpr (Or.inr hold)

/-- To delete a step in front of the cursor is to remove it with its descendants. -/
theorem Covers.delete (h : c.Covers removed) (hwoven : c.guide.Woven) {next : Nat}
    (hahead : c.position ≤ next) :
    (c.delete next).Covers (removed ∪ {j | Relation.ReflTransGen c.guide.Leads next j}) := by
  have hmem : ∀ j, j ∈ (c.delete next).deleted ↔ j = next ∨ j ∈ c.deleted :=
    fun j => mem_insertAscending
  constructor
  · intro j hj
    rcases (hmem j).mp hj with rfl | hold
    · exact Or.inr .refl
    · exact Or.inl (h.deleted j hold)
  · intro i hi hlt
    have hlt : i < c.position := hlt
    rcases hi with hold | hnew
    · obtain ⟨hdeleted, hon⟩ := h.passed i hold hlt
      exact ⟨(hmem i).mpr (Or.inr hdeleted), fun j hj => (hmem j).mpr (Or.inr (hon j hj))⟩
    · -- no descendant lies behind the cursor
      have hle := hwoven.le_of_descends hnew
      omega
  · rintro j (hold | hnew)
    · rcases h.pending j hold with hdeleted | ⟨i, hi, hleads⟩
      · exact Or.inl ((hmem j).mpr (Or.inr hdeleted))
      · exact Or.inr ⟨i, Or.inl hi, hleads⟩
    · rcases Relation.ReflTransGen.cases_tail hnew with rfl | ⟨i, hi, hleads⟩
      · exact Or.inl ((hmem _).mpr (Or.inl rfl))
      · exact Or.inr ⟨i, Or.inr hi, hleads⟩

/-! ## Looking for the next operation -/

/-- The outcome of looking for the next operation, given the step that is found: the answer and the
cursor, which still covers the removed steps. -/
inductive Finds (policy : MatchPolicy) (guide : EventTree) (cutoff : Option Nat)
    (removed : Set Nat) : Option (Nat × Step × Snapshot) → Option OperationId × Cursor → Prop
  /-- The guide has ended. -/
  | ended {c : Cursor} (same : c.guide = guide ∧ c.cutoff = cutoff) (covers : c.Covers removed)
      (ends : c.nextStep? = none) (active : c.active = none) :
      Finds policy guide cutoff removed none (none, c)
  /-- A step is found, and it is taken if the policy accepts the operation. -/
  | found {c : Cursor} {j : Nat} {step : Step} {op : Snapshot}
      (same : c.guide = guide ∧ c.cutoff = cutoff) (covers : c.Covers removed)
      (position : c.position = if policy.accepts step op then j + 1 else j)
      (active : c.active = if policy.accepts step op then some j else none) :
      Finds policy guide cutoff removed (some (j, step, op)) (some step.source, c)

/-- At the end of the guide no step can be served. -/
theorem serve?_of_ended {e : EagerCursor} (hguide : c.guide = e.guide)
    (hcutoff : c.cutoff = e.cutoff) (hends : c.nextStep? = none) (choices : List Snapshot) :
    (List.range' c.position (e.guide.size - c.position)).findSome? (e.serve? choices) = none := by
  rw [List.findSome?_eq_none_iff]
  intro j hj
  obtain ⟨hle, hlt⟩ := List.mem_range'_1.mp hj
  rw [EagerCursor.serve?, if_neg]
  rintro ⟨hwithin, -⟩
  -- up to the cutoff there would be a step at the position
  have hsize : c.position < c.guide.steps.size := by
    show c.position < c.guide.size
    rw [hguide]
    omega
  have hnext := nextStep?_eq_some_iff.mpr ⟨Array.getElem?_eq_getElem hsize, fun last hlast =>
    Nat.le_trans hle (hwithin last (hcutoff ▸ hlast))⟩
  rw [hends] at hnext
  cases hnext

theorem serve?_of_removed {e : EagerCursor} {j : Nat} (h : j ∈ e.removed)
    (choices : List Snapshot) : e.serve? choices j = none := by
  rw [EagerCursor.serve?, if_neg]
  rintro ⟨-, hkept⟩
  exact hkept h

theorem serve?_of_choice {e : EagerCursor} {j : Nat} {step : Step}
    (hstep : e.guide.steps[j]? = some step) (hchoice : step.kind.isChoice = true)
    (choices : List Snapshot) : e.serve? choices j = none := by
  have hoffer : e.guide.offer? choices j = none := by
    simp [EventTree.offer?, hstep, hchoice, Option.filter]
  rw [EagerCursor.serve?, hoffer]
  split <;> rfl

/-- A step that is not removed and no choice can be served if its operation is enabled. -/
theorem serve?_of_kept {e : EagerCursor} {j : Nat} {step : Step}
    (hstep : e.guide.steps[j]? = some step) (hwithin : ∀ last ∈ e.cutoff, j ≤ last)
    (hkept : j ∉ e.removed) (hchoice : ¬step.kind.isChoice = true) (choices : List Snapshot) :
    e.serve? choices j =
      (choices.find? fun op => op.enabled && op.id = step.source).map fun op => (j, step, op) := by
  have hoffer : e.guide.offer? choices j =
      (choices.find? fun op => op.enabled && op.id = step.source).map fun op => (step, op) := by
    simp [EventTree.offer?, hstep, hchoice, Option.filter]
  rw [EagerCursor.serve?, if_pos ⟨hwithin, hkept⟩, hoffer, Option.map_map]
  rfl

/-- What is found from a position on is found there or behind it. -/
theorem findSome?_range'_position {e : EagerCursor} {step : Step} (hguide : c.guide = e.guide)
    (hstep : c.nextStep? = some step) (choices : List Snapshot) :
    (List.range' c.position (e.guide.size - c.position)).findSome? (e.serve? choices) =
      (e.serve? choices c.position).or ((List.range' (c.position + 1)
        (e.guide.size - (c.position + 1))).findSome? (e.serve? choices)) := by
  have hlt := lt_size_of_nextStep? hstep
  rw [hguide] at hlt
  have hsize : e.guide.size - c.position = (e.guide.size - (c.position + 1)) + 1 := by omega
  rw [hsize, List.range'_succ, List.findSome?_cons]
  cases e.serve? choices c.position <;> rfl

/-- Walking past the deleted steps a cursor finds what is found with the removed steps left out. -/
theorem finds_nextOperation {e : EagerCursor} (policy : MatchPolicy) (choices : List Snapshot)
    (hwoven : e.guide.Woven) (hremoval : Removal e.guide e.removed) {c : Cursor}
    (hguide : c.guide = e.guide) (hcutoff : c.cutoff = e.cutoff) (h : c.Covers e.removed) :
    Finds policy e.guide e.cutoff e.removed
      ((List.range' c.position (e.guide.size - c.position)).findSome? (e.serve? choices))
      (c.nextOperation policy choices) := by
  -- the induction is on the walk: what is passed cannot be served, so that the rest is searched
  fun_induction nextOperation policy choices c with
  | case1 c hends =>
      rw [serve?_of_ended hguide hcutoff hends choices]
      exact .ended ⟨hguide, hcutoff⟩ ⟨h.deleted, h.passed, h.pending⟩ hends rfl
  | case2 c step hstep hdeleted ih =>
      have hremoved := (h.isDeleted_iff (hguide ▸ hwoven)).mp hdeleted
      have hguide' : (c.passDeleted step).guide = e.guide :=
        (guide_passDeleted c step).trans hguide
      have hcutoff' : (c.passDeleted step).cutoff = e.cutoff := by
        simp [Cursor.passDeleted, Cursor.advance, cutoff_deleteLink, hcutoff]
      have hposition := position_passDeleted c step
      have hrest := ih hguide' hcutoff' (h.passDeleted (hguide ▸ hremoval)
        (nextStep?_eq_some_iff.mp hstep).1 (List.contains_iff_mem.mp hdeleted))
      rw [hposition] at hrest
      rw [findSome?_range'_position hguide hstep, serve?_of_removed hremoved, Option.none_or]
      exact hrest
  | case3 c step hstep hdeleted hchoice ih =>
      have hkept := mt (h.isDeleted_iff (hguide ▸ hwoven)).mpr hdeleted
      have hthere := hguide ▸ (nextStep?_eq_some_iff.mp hstep).1
      rw [findSome?_range'_position hguide hstep, serve?_of_choice hthere hchoice, Option.none_or]
      exact ih hguide hcutoff (h.advance hkept)
  | case4 c step hstep hdeleted hchoice hfind ih =>
      have hkept := mt (h.isDeleted_iff (hguide ▸ hwoven)).mpr hdeleted
      have hthere := hguide ▸ (nextStep?_eq_some_iff.mp hstep).1
      have hwithin := hcutoff ▸ (nextStep?_eq_some_iff.mp hstep).2
      rw [findSome?_range'_position hguide hstep, serve?_of_kept hthere hwithin hkept hchoice,
        hfind, Option.map_none, Option.none_or]
      exact ih hguide hcutoff (h.advance hkept)
  | case5 c step hstep hdeleted hchoice op hfind =>
      have hkept := mt (h.isDeleted_iff (hguide ▸ hwoven)).mpr hdeleted
      have hthere := hguide ▸ (nextStep?_eq_some_iff.mp hstep).1
      have hwithin := hcutoff ▸ (nextStep?_eq_some_iff.mp hstep).2
      rw [findSome?_range'_position hguide hstep, serve?_of_kept hthere hwithin hkept hchoice,
        hfind, Option.map_some, Option.some_or]
      have hsource : op.id = step.source := by
        have hfits := List.find?_some hfind
        simp only [Bool.and_eq_true, decide_eq_true_eq] at hfits
        exact hfits.2
      rw [hsource]
      -- an operation that the policy accepts takes the step, any other leaves the guide there
      cases haccepts : policy.accepts step op with
      | true =>
          have hpassed := h.advance hkept
          exact .found ⟨hguide, hcutoff⟩ ⟨hpassed.deleted, hpassed.passed, hpassed.pending⟩
            (by rw [haccepts]; rfl) (by rw [haccepts]; rfl)
      | false =>
          exact .found ⟨hguide, hcutoff⟩ ⟨h.deleted, h.passed, h.pending⟩
            (by rw [haccepts]; rfl) (by rw [haccepts]; rfl)

/-- What is found is a step of the guide that is not removed. -/
theorem of_found? {e : EagerCursor} {choices : List Snapshot} {j : Nat} {step : Step}
    {op : Snapshot} (h : e.found? choices = some (j, step, op)) :
    j ∉ e.removed ∧ op ∈ choices ∧ op.enabled = true ∧ op.id = step.source := by
  obtain ⟨p, -, hfound⟩ := Option.bind_eq_some_iff.mp h
  obtain ⟨i, -, hserve⟩ := List.exists_of_findSome?_eq_some hfound
  rw [EagerCursor.serve?] at hserve
  split at hserve
  · rename_i hallowed
    obtain ⟨offer, hoffer, heq⟩ := Option.map_eq_some_iff.mp hserve
    obtain ⟨rfl, rfl⟩ := Prod.mk.inj heq
    obtain ⟨step', -, hmap⟩ := Option.bind_eq_some_iff.mp hoffer
    obtain ⟨op', hfind, heq'⟩ := Option.map_eq_some_iff.mp hmap
    obtain ⟨rfl, rfl⟩ := Prod.mk.inj heq'
    have hfits := List.find?_some hfind
    simp only [Bool.and_eq_true, decide_eq_true_eq] at hfits
    exact ⟨hallowed.2, List.mem_of_find?_eq_some hfind, hfits.1, hfits.2⟩
  · cases hserve

/-! ## In step -/

/-- A lazy and an eager cursor are at the same place, the deletions of the one stand for the removed
steps of the other, and the step that is being taken is not removed. Behind a send that is being
taken nothing has been passed yet. -/
structure Mirrors (c : Cursor) (e : EagerCursor) : Prop where
  guide : c.guide = e.guide
  cutoff : c.cutoff = e.cutoff
  active : c.active = e.active
  position : e.position = some c.position ∨
    (e.position = none ∧ c.nextStep? = none ∧ c.active = none)
  covers : c.Covers e.removed
  removal : Removal e.guide e.removed
  kept : ∀ a ∈ c.active, a ∉ e.removed
  sending : ∀ a ∈ c.active, ∀ step, Editor.guideSend? c = some step → c.position = a + 1

variable {e : EagerCursor}

theorem mirrors_start (guide : EventTree) (cutoff : Option Nat) :
    (start guide cutoff).Mirrors (.start guide cutoff) where
  guide := rfl
  cutoff := rfl
  active := rfl
  position := Or.inl rfl
  covers := ⟨fun _ hj => absurd hj List.not_mem_nil, fun _ hi => absurd hi (Set.notMem_empty _),
    fun _ hj => absurd hj (Set.notMem_empty _)⟩
  removal := ⟨fun _ _ hi => absurd hi (Set.notMem_empty _),
    fun _ hj => absurd hj (Set.notMem_empty _)⟩
  kept a _ := Set.notMem_empty a
  sending a ha step _ := by
    cases ha
    rfl

theorem Mirrors.activeStep? (h : c.Mirrors e) : c.activeStep? = e.activeStep? := by
  rw [Cursor.activeStep?, EagerCursor.activeStep?, h.active, h.guide]

/-- Nothing is being taken at the end of the guide, nor where an operation is not accepted. -/
theorem Mirrors.of_idle (h : c.Mirrors e) {c' : Cursor} {position : Option Nat}
    (same : c'.guide = e.guide ∧ c'.cutoff = e.cutoff) (covers : c'.Covers e.removed)
    (active : c'.active = none)
    (hposition : position = some c'.position ∨ (position = none ∧ c'.nextStep? = none)) :
    c'.Mirrors { e with position := position, active := none } := by
  refine ⟨same.1, same.2, active, ?_, covers, h.removal, ?_, ?_⟩
  · exact hposition.imp_right fun hend => ⟨hend.1, hend.2, active⟩
  · intro a ha
    rw [active] at ha
    cases ha
  · intro a ha
    rw [active] at ha
    cases ha

theorem Mirrors.takeAt (h : c.Mirrors e) {c' : Cursor} {j : Nat}
    (same : c'.guide = e.guide ∧ c'.cutoff = e.cutoff) (covers : c'.Covers e.removed)
    (position : c'.position = j + 1) (active : c'.active = some j) (hkept : j ∉ e.removed) :
    c'.Mirrors (e.takeAt j) := by
  refine ⟨same.1, same.2, active, Or.inl (congrArg some position.symm), covers, h.removal, ?_, ?_⟩
  · intro a ha
    rw [active] at ha
    cases ha
    exact hkept
  · intro a ha _ _
    rw [active] at ha
    cases ha
    exact position

/-- What the lazy cursor finds is what the eager one finds. -/
theorem Mirrors.finds (h : c.Mirrors e) (hwoven : e.guide.Woven) (policy : MatchPolicy)
    (choices : List Snapshot) :
    Finds policy e.guide e.cutoff e.removed (e.found? choices)
      (c.nextOperation policy choices) := by
  rcases h.position with hposition | ⟨hnone, hends, -⟩
  · have hfound : e.found? choices = (List.range' c.position
        (e.guide.size - c.position)).findSome? (e.serve? choices) := by
      rw [EagerCursor.found?, hposition, Option.bind_some]
    rw [hfound]
    exact finds_nextOperation policy choices hwoven h.removal h.guide h.cutoff h.covers
  · -- the guide has ended for good
    rw [EagerCursor.found?, hnone, nextOperation_of_end hends]
    exact .ended ⟨h.guide, h.cutoff⟩ ⟨h.covers.deleted, h.covers.passed, h.covers.pending⟩ hends rfl

/-- Both cursors give the same operation and stay in step. -/
theorem Mirrors.nextOperation (h : c.Mirrors e) (hwoven : e.guide.Woven) (policy : MatchPolicy)
    (choices : List Snapshot) :
    (c.nextOperation policy choices).1 = (e.nextOperation policy choices).1 ∧
      (c.nextOperation policy choices).2.Mirrors (e.nextOperation policy choices).2 := by
  have hfinds := h.finds hwoven policy choices
  generalize c.nextOperation policy choices = result at hfinds ⊢
  unfold EagerCursor.nextOperation
  cases hfound : e.found? choices with
  | none =>
      rw [hfound] at hfinds
      cases hfinds with
      | ended same covers ends active =>
          exact ⟨rfl, h.of_idle same covers active (Or.inr ⟨rfl, ends⟩)⟩
  | some found =>
      obtain ⟨j, step, op⟩ := found
      rw [hfound] at hfinds
      have hkept := (of_found? hfound).1
      cases hfinds with
      | found same covers position active =>
          dsimp only
          cases haccepts : policy.accepts step op with
          | true =>
              rw [haccepts, if_pos rfl] at position active
              rw [if_pos rfl]
              exact ⟨rfl, h.takeAt same covers position active hkept⟩
          | false =>
              rw [haccepts, if_neg Bool.false_ne_true] at position active
              rw [if_neg Bool.false_ne_true]
              exact ⟨rfl, h.of_idle same covers active (Or.inl (congrArg some position.symm))⟩

/-- A choice that follows the step being taken is removed only together with that step. -/
theorem Mirrors.notMem_of_choice (h : c.Mirrors e) (hwoven : e.guide.Woven) {a next : Nat}
    {step : Step} (hactive : c.active = some a) (hlink : e.guide.directChild? a = some next)
    (hstep : e.guide.steps[next]? = some step) (hchoice : step.kind.isChoice = true) :
    next ∉ e.removed := by
  -- nothing else brings a choice about
  have hbrought : ∀ i, e.guide.createdChild? i ≠ some next := by
    intro i hcreated
    have hnot := hwoven.brought i next step hcreated hstep
    rw [hchoice] at hnot
    cases hnot
  intro hremoved
  rcases h.removal.caused next hremoved with ⟨i, hcreated⟩ | ⟨i, hi, hdirect | hcreated⟩
  · exact hbrought i hcreated
  · obtain rfl := hwoven.follows i a next hdirect hlink
    exact h.kept i hactive hi
  · exact hbrought i hcreated

/-- A choice that is taken is no send, and the cursors stay in step. -/
theorem Mirrors.takeChoice (h : c.Mirrors e) {a next : Nat} {step : Step}
    (hactive : c.active = some a) (hstep : c.guide.steps[next]? = some step)
    (hsend : step.kind ≠ .send) (hkept : next ∉ e.removed) :
    (Cursor.Mirrors { c with active := some next } { e with active := some next }) := by
  refine ⟨h.guide, h.cutoff, rfl, ?_, ⟨h.covers.deleted, h.covers.passed, h.covers.pending⟩,
    h.removal, ?_, ?_⟩
  · rcases h.position with hposition | ⟨-, -, hnone⟩
    · exact Or.inl hposition
    · rw [hnone] at hactive
      cases hactive
  · intro b hb
    cases hb
    exact hkept
  · intro b _ taken hsent
    have hat : Cursor.activeStep? { c with active := some next } = some step := hstep
    rw [Editor.guideSend?, hat, Option.filter_some, if_neg (by simpa using hsend)] at hsent
    cases hsent

/-- Both cursors give the same choice and stay in step. -/
theorem Mirrors.nextChoice (h : c.Mirrors e) (hwoven : e.guide.Woven) (boolean : Bool) :
    (c.nextChoice boolean).1 = (e.nextChoice boolean).1 ∧
      (c.nextChoice boolean).2.Mirrors (e.nextChoice boolean).2 := by
  cases hnext : e.activeStep?.bind (·.directChild) with
  | none =>
      have hlazy : c.nextChoice boolean = (none, c) := by
        rw [Cursor.nextChoice, h.activeStep?, hnext]
      have heager : e.nextChoice boolean = (none, e) := by
        rw [EagerCursor.nextChoice, hnext]
      rw [hlazy, heager]
      exact ⟨rfl, h⟩
  | some next =>
      obtain ⟨a, ha, hlink⟩ : ∃ a, c.active = some a ∧ e.guide.directChild? a = some next := by
        obtain ⟨taken, htaken, hdirect⟩ := Option.bind_eq_some_iff.mp hnext
        obtain ⟨a, ha, hat⟩ := Option.bind_eq_some_iff.mp htaken
        exact ⟨a, h.active.trans ha, (EventTree.directChild?_of_step hat).trans hdirect⟩
      cases hstep : e.guide.steps[next]? with
      | none =>
          have hthere : c.guide.steps[next]? = none := h.guide ▸ hstep
          have hlazy : c.nextChoice boolean = (none, c) := by
            simp only [Cursor.nextChoice, h.activeStep?, hnext, hthere]
          have heager : e.nextChoice boolean = (none, e) := by
            simp only [EagerCursor.nextChoice, hnext, hstep]
          rw [hlazy, heager]
          exact ⟨rfl, h⟩
      | some step =>
          have hthere : c.guide.steps[next]? = some step := h.guide ▸ hstep
          simp only [Cursor.nextChoice, EagerCursor.nextChoice, h.activeStep?, hnext, hthere,
            hstep]
          cases hfits : isChoiceOf boolean step.kind with
          | false => exact ⟨rfl, h⟩
          | true =>
              obtain ⟨hchoice, hsend⟩ := isChoice_of_isChoiceOf hfits
              have hkept := h.notMem_of_choice hwoven ha hlink hstep hchoice
              have hlive : (true && !c.isDeleted next) = true := by
                simpa [isDeleted] using fun hdeleted => hkept (h.covers.deleted next hdeleted)
              rw [if_pos hlive, if_pos ⟨rfl, hkept⟩]
              exact ⟨rfl, h.takeChoice ha hthere hsend hkept⟩

/-- A send that is withheld leads forward, so that nothing is removed behind the cursor. -/
theorem Mirrors.withhold (h : c.Mirrors e) (hwoven : e.guide.Woven) :
    c.withhold.Mirrors e.withhold := by
  have hsent : (Editor.guideSend? c).bind (·.createdChild) = e.sent? := by
    rw [Editor.guideSend?, EagerCursor.sent?, h.activeStep?]
  rw [Cursor.withhold, EagerCursor.withhold, hsent]
  cases hreceive : e.sent? with
  | none => exact h
  | some receive =>
      rw [hreceive] at hsent
      obtain ⟨step, hsend, hlink⟩ := Option.bind_eq_some_iff.mp hsent
      obtain ⟨a, ha, hcreated⟩ : ∃ a, c.active = some a ∧
          e.guide.createdChild? a = some receive := by
        obtain ⟨a, ha, hat⟩ := Option.bind_eq_some_iff.mp (Option.filter_eq_some_iff.mp hsend).1
        rw [h.guide] at hat
        exact ⟨a, ha, (EventTree.createdChild?_of_step hat).trans hlink⟩
      have hforward : a < receive := hwoven.forward a receive (Or.inr hcreated)
      have hahead : c.position ≤ receive := by
        rw [h.sending a ha step hsend]
        exact hforward
      have hcovers := h.covers.delete (h.guide ▸ hwoven) hahead
      rw [h.guide] at hcovers
      refine ⟨h.guide, h.cutoff, h.active, h.position, hcovers, h.removal.union hcreated, ?_,
        h.sending⟩
      -- the send itself lies in front of all that is removed with its receive
      rintro b hb (hold | hnew)
      · exact h.kept b hb hold
      · have hb : c.active = some b := hb
        rw [ha] at hb
        cases hb
        have hle := hwoven.le_of_descends hnew
        omega

theorem Mirrors.after (h : c.Mirrors e) (hwoven : e.guide.Woven) (policy : MatchPolicy)
    (call : Call) : (c.after policy call).Mirrors (e.after policy call) := by
  cases call with
  | nextOperation choices => exact (h.nextOperation hwoven policy choices).2
  | nextChoice boolean => exact (h.nextChoice hwoven boolean).2
  | withhold => exact h.withhold hwoven

/-- Cursors that are in step stay so, whatever they are asked. -/
theorem Mirrors.afterAll (h : c.Mirrors e) (hwoven : e.guide.Woven) (policy : MatchPolicy)
    (calls : List Call) : (c.afterAll policy calls).Mirrors (e.afterAll policy calls) := by
  induction calls generalizing c e with
  | nil => exact h
  | cons call calls ih =>
      have hnext := h.after hwoven policy call
      have hguide := EagerCursor.guide_after policy e call
      exact ih hnext (hguide ▸ hwoven)

/-- Lazy deletion is eager deletion. In a guide tree that was recorded, whatever was recorded, with
any cutoff and under any policy, and after any sequence of requests and withheld sends, a cursor
answers every request for an operation or a choice as the eager cursor does, at the same place. The
step being taken has no deleted ancestor, and an operation that is returned is enabled. -/
theorem lazy_deletion_is_eager (recording : List Recorder.Call) (cutoff : Option Nat)
    (policy : MatchPolicy) (calls : List Call) :
    let guide := (Recorder.empty.afterAll recording).tree
    let c := (start guide cutoff).afterAll policy calls
    let e := (EagerCursor.start guide cutoff).afterAll policy calls
    (∀ choices, (c.nextOperation policy choices).1 = (e.nextOperation policy choices).1) ∧
    (∀ boolean, (c.nextChoice boolean).1 = (e.nextChoice boolean).1) ∧
    c.active = e.active ∧
    (e.position = some c.position ∨ (e.position = none ∧ c.nextStep? = none)) ∧
    (∀ j ∈ c.active, ∀ i, Relation.ReflTransGen guide.Leads i j → c.isDeleted i = false) ∧
    ∀ choices, ∀ id ∈ (c.nextOperation policy choices).1,
      ∃ op ∈ choices, op.enabled = true ∧ op.id = id := by
  intro guide c e
  have hwoven : guide.Woven := (Recorder.accounts_afterAll recording).woven
  have h : c.Mirrors e := (mirrors_start guide cutoff).afterAll hwoven policy calls
  have hguide : e.guide = guide := EagerCursor.guide_afterAll policy _ calls
  rw [← hguide] at hwoven
  refine ⟨fun choices => (h.nextOperation hwoven policy choices).1,
    fun boolean => (h.nextChoice hwoven boolean).1, h.active, ?_, ?_, ?_⟩
  · exact h.position.imp_right fun hend => ⟨hend.1, hend.2.1⟩
  · intro j hj i hdescends
    rw [isDeleted, ← Bool.not_eq_true, List.contains_iff_mem]
    intro hdeleted
    exact h.kept j hj (h.removal.of_descends (hguide ▸ hdescends) (h.covers.deleted i hdeleted))
  · intro choices id hid
    rw [(h.nextOperation hwoven policy choices).1] at hid
    rw [EagerCursor.nextOperation] at hid
    cases hfound : e.found? choices with
    | none =>
        rw [hfound] at hid
        cases hid
    | some found =>
        obtain ⟨j, step, op⟩ := found
        rw [hfound] at hid
        cases hid
        obtain ⟨-, hmem, henabled, hsource⟩ := of_found? hfound
        exact ⟨op, hmem, henabled, hsource⟩

/-- The harness creates an operation, which answers its message, and sends another one. -/
def answeredMessage : List Recorder.Call :=
  [.notice (.created .harness ⟨1⟩), .notice (.started ⟨1⟩ none),
    .send .harness ⟨1⟩ { name := "Ask", message := some ⟨1⟩ },
    .notice (.received ⟨1⟩ { name := "Ask", message := some ⟨1⟩ }),
    .send ⟨1⟩ .harness { name := "Answer", message := some ⟨2⟩ },
    .send .harness ⟨1⟩ { name := "Thank", message := some ⟨3⟩ }]

/-- An operation that is enabled. -/
def ready (id : OperationId) : Snapshot where
  id := id
  name := ""
  enabled := true
  completed := false
  waiting := false
  next := .start id
  count := 0

/-- The guide is followed to the first message, which is withheld. -/
def untilWithheld : List Call :=
  [.nextOperation [ready .harness], .nextOperation [ready ⟨1⟩], .nextOperation [ready .harness],
    .withhold]

/-- Behind the withheld message both cursors pass over its receive and the answer. -/
theorem lazy_deletion_is_eager_of_answeredMessage :
    let guide := (Recorder.empty.afterAll answeredMessage).tree
    let both := [ready ⟨1⟩, ready .harness]
    let c := (start guide none).afterAll .always (untilWithheld ++ [.nextOperation both])
    let e := (EagerCursor.start guide none).afterAll .always untilWithheld
    (e.nextOperation .always both).1 = some .harness ∧
      (∃ op ∈ both, op.enabled = true ∧ op.id = .harness) ∧
      c.active = some 6 ∧ Relation.ReflTransGen guide.Leads 3 6 ∧ c.isDeleted 3 = false := by
  intro guide both c e
  have hanswer : (((start guide none).afterAll .always untilWithheld).nextOperation .always
      both).1 = some .harness := by decide +kernel
  have hactive : c.active = some 6 := by decide +kernel
  have hleads : guide.Leads 3 6 := by
    left
    decide +kernel
  have hdescends := Relation.ReflTransGen.single hleads
  obtain ⟨hoperation, -, -, -, -, henabled⟩ :=
    lazy_deletion_is_eager answeredMessage none .always untilWithheld
  obtain ⟨-, -, -, -, hkept, -⟩ := lazy_deletion_is_eager answeredMessage none .always
    (untilWithheld ++ [.nextOperation both])
  exact ⟨(hoperation both).symm.trans hanswer, henabled both .harness hanswer, hactive, hdescends,
    hkept 6 hactive 3 hdescends⟩

end Cursor

end Minimization

end Interleave
