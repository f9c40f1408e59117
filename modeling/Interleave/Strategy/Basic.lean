import Interleave.Outcome

/-!
# Strategies

A strategy is the decision function of a run. The scheduler asks it for the next operation at every
scheduling point and for a value at every nondeterministic choice, and tells it what the program
did. `Strategy σ` says that the states `σ` are those of a strategy. Every request returns the state
after it, also when it fails.
-/

namespace Interleave

/-- The answer to a request for a decision: an error, a decision, or none, which ends the run. -/
abbrev Answer (α : Type) := Except StrategyError (Option α)

/-- The operations of a strategy on its states. -/
class Strategy (σ : Type) where
  /-- The operation to run next, among the enabled ones of the given snapshots. -/
  nextOperation : σ → List Snapshot → OperationId → Answer OperationId × σ
  /-- The next Boolean; `max` is the inverse probability of `true`. -/
  nextBoolean : σ → (max : UInt32) → Answer Bool × σ
  /-- The next integer below `max`. -/
  nextInteger : σ → (max : UInt32) → Answer UInt32 × σ
  /-- Take the given operation as the decision of this step. -/
  forceOperation : σ → OperationId → List Snapshot → OperationId → Except StrategyError Unit × σ
  /-- Take the given Boolean as the decision of this step. -/
  forceBoolean : σ → (max : UInt32) → Bool → Except StrategyError Unit × σ
  /-- Take the given integer as the decision of this step. -/
  forceInteger : σ → (max : UInt32) → UInt32 → Except StrategyError Unit × σ
  /-- Prepare the next run; `false` says that there is none. -/
  prepare : σ → Except StrategyError Bool × σ
  /-- Forget the current run and start it over. -/
  reset : σ → σ
  /-- Steps scheduled in the current run. -/
  steps : σ → Nat
  /-- Whether the step bound is reached. -/
  boundReached : σ → Bool
  /-- Whether every enabled operation is eventually scheduled. -/
  isFair : σ → Bool
  /-- A short description. -/
  describe : σ → String
  /-- Observe one entry of the notification stream. -/
  observe : σ → Notice → σ := fun s _ => s
  /-- Observe a send, from one operation to another, and decide its delivery. -/
  onSend : σ → (sender target : OperationId) → Event → Delivery × σ := fun s _ _ _ => (.deliver, s)
  /-- The run is over. -/
  onEnd : σ → Outcome → Except StrategyError Unit × σ := fun s _ => (.ok (), s)

end Interleave
