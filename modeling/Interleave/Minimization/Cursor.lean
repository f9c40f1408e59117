import Interleave.EventTree.Basic
import Interleave.Minimization.MatchPolicy

/-!
# Following a guide tree

A cursor walks over a guide tree while a run follows it. `Cursor.nextOperation` finds the operation
that takes the next guide step and `Cursor.nextChoice` reads a choice off the step being taken.
Steps can be deleted: a deleted step is passed over, and its links delete the steps they lead to.
With a cutoff the guide ends behind the step of that index.
-/

namespace Interleave.Minimization

/-- A place in a guide tree. -/
structure Cursor where
  guide : EventTree
  /-- The next guide step. -/
  position : Nat
  /-- The guide step that the running operation is taking, if it takes one. -/
  active : Option Nat
  /-- Indices of the deleted steps, ascending. -/
  deleted : List Nat
  /-- The last step that may be followed. -/
  cutoff : Option Nat
  deriving DecidableEq

namespace Cursor

/-- The cursor behind the root, which is being taken. -/
def start (guide : EventTree) (cutoff : Option Nat) : Cursor :=
  ⟨guide, 1, some 0, [], cutoff⟩

/-- Whether the next step lies behind the cutoff. -/
def isPastCutoff (c : Cursor) : Bool :=
  c.cutoff.any (· < c.position)

/-- The next guide step, or nothing at the end of the guide. -/
def nextStep? (c : Cursor) : Option Step :=
  if c.isPastCutoff then none else c.guide.steps[c.position]?

/-- Whether the guide has no step left. -/
def reachedEnd (c : Cursor) : Bool :=
  c.isPastCutoff || c.guide.size ≤ c.position

/-- The guide step being taken. -/
def activeStep? (c : Cursor) : Option Step :=
  c.active.bind fun i => c.guide.steps[i]?

/-- Whether a step is deleted. -/
def isDeleted (c : Cursor) (index : Nat) : Bool :=
  c.deleted.contains index

/-- The cursor with one more step deleted. -/
def delete (c : Cursor) (index : Nat) : Cursor :=
  { c with deleted := insertAscending index c.deleted }

/-- The cursor with an optional step deleted. -/
def deleteLink (c : Cursor) (link : Option Nat) : Cursor :=
  match link with
  | some index => c.delete index
  | none => c

/-- The cursor at the next position. -/
def advance (c : Cursor) : Cursor :=
  { c with position := c.position + 1 }

/-- The cursor past a deleted step, with the steps deleted that it leads to. -/
def passDeleted (c : Cursor) (step : Step) : Cursor :=
  ((c.deleteLink step.directChild).deleteLink step.createdChild).advance

/-- The cursor without a step being taken. -/
def release (c : Cursor) : Cursor :=
  { c with active := none }

/-- The cursor that takes the step at its position. -/
def take (c : Cursor) : Cursor :=
  { c.advance with active := some c.position }

theorem lt_size_of_nextStep? {c : Cursor} {step : Step} (h : c.nextStep? = some step) :
    c.position < c.guide.size := by
  simp only [nextStep?] at h
  split at h
  · simp at h
  · exact (Array.getElem?_eq_some_iff.mp h).1

theorem size_sub_advance {c : Cursor} {step : Step} (h : c.nextStep? = some step) :
    c.guide.size - (c.position + 1) < c.guide.size - c.position := by
  have := lt_size_of_nextStep? h
  omega

theorem guide_deleteLink (c : Cursor) (link : Option Nat) :
    (c.deleteLink link).guide = c.guide := by
  cases link <;> rfl

theorem position_deleteLink (c : Cursor) (link : Option Nat) :
    (c.deleteLink link).position = c.position := by
  cases link <;> rfl

/-- The enabled operation that takes the next guide step. Deleted steps and choices are passed over,
and so are steps whose operation is not enabled, since it may wait for a message. An operation that
the policy does not accept is returned as well, but then no step is taken and the guide stays where
it is. At the end of the guide there is no operation. -/
def nextOperation (policy : MatchPolicy) (choices : List Snapshot) (c : Cursor) :
    Option OperationId × Cursor :=
  match _ : c.nextStep? with
  | none => (none, c.release)
  | some step =>
    if c.isDeleted c.position then nextOperation policy choices (c.passDeleted step)
    else if step.kind.isChoice then nextOperation policy choices c.advance
    else match choices.find? fun op => op.enabled && op.id = step.source with
      | none => nextOperation policy choices c.advance
      | some op => (some op.id, if policy.accepts step op then c.take else c.release)
termination_by c.guide.size - c.position
decreasing_by
  · simpa [passDeleted, advance, guide_deleteLink, position_deleteLink] using
      size_sub_advance ‹c.nextStep? = some step›
  · exact size_sub_advance ‹c.nextStep? = some step›
  · exact size_sub_advance ‹c.nextStep? = some step›

/-- Whether a step is a choice of the requested type. -/
def isChoiceOf (boolean : Bool) : StepKind → Bool
  | .boolean _ => boolean
  | .integer _ => !boolean
  | _ => false

/-- The choice that follows the step being taken, if it is of the requested type and not deleted. It
becomes the step being taken. -/
def nextChoice (boolean : Bool) (c : Cursor) : Option StepKind × Cursor :=
  match c.activeStep?.bind (·.directChild) with
  | none => (none, c)
  | some next =>
    match c.guide.steps[next]? with
    | none => (none, c)
    | some step =>
      if isChoiceOf boolean step.kind && !c.isDeleted next then
        (some step.kind, { c with active := some next })
      else (none, c)

end Cursor

end Interleave.Minimization
