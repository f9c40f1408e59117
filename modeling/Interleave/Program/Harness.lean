import Interleave.Engine
import Interleave.Program.Machine

/-!
# Programs in an engine

The harness that runs a program once an iteration and keeps a record of every run.
-/

namespace Interleave

/-- What one run of a program leaves: its outcome at the time when the program has ended, and its
log. -/
structure RunRecord where
  outcome : Outcome
  log : Array (OperationId × Value)

variable {σ β : Type} [Strategy σ]

/-- Run a program and append the record of the run. -/
def Program.harness (p : Program β) : Harness σ (Array RunRecord) := fun records s =>
  let m := p.run s
  (records.push ⟨m.scheduler.outcome, m.log⟩, m.scheduler)

/-- Run nothing: no operation is registered. -/
def idleHarness : Harness σ (Array RunRecord) := fun records s =>
  (records.push ⟨s.outcome, #[]⟩, s)

end Interleave
