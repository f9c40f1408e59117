import Interleave.Scheduler.Calls

/-!
# Waiting calls

A call at a suspension point that is not given control waits until the slot of its operation is
activated. `Callers` keeps the calls that wait, by number, and `Callers.release` gives the replies
of those that need not wait any longer.
-/

namespace Interleave

/-- A scheduler and the calls that wait, in the order in which they began to: the number of each
call and the operation whose slot it waits for. -/
structure Callers (σ : Type) where
  scheduler : Scheduler σ
  waiting : List (Nat × OperationId)

namespace Callers

variable {σ : Type}

/-- What a waiting call gets now. -/
def replyTo (c : Callers σ) (id : OperationId) : Reply :=
  ((c.scheduler.slot? id).map Slot.wake).getD .parked

/-- The replies to the calls that need not wait any longer, and the others. -/
def release (c : Callers σ) : List (Nat × Reply) × Callers σ :=
  let (still, woken) := c.waiting.partition fun (_, id) => c.replyTo id = .parked
  (woken.map fun (number, id) => (number, c.replyTo id), { c with waiting := still })

/-- The state after a call of the given number by an operation, and its reply. -/
def enter (c : Callers σ) (number : Nat) (id : OperationId) (result : Reply × Scheduler σ) :
    Reply × Callers σ :=
  match result with
  | (.parked, s) => (.parked, ⟨s, c.waiting ++ [(number, id)]⟩)
  | (reply, s) => (reply, { c with scheduler := s })

end Callers

end Interleave
