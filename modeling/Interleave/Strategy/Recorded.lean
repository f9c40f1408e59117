import Interleave.EventTree.Mintrace
import Interleave.EventTree.Recorder
import Interleave.Strategy.Basic

/-!
# Recording strategies

A strategy that leaves every decision to another one and records each run as an event tree. The
summary of a run stays available until the next run ends.
-/

namespace Interleave

/-- A strategy of states `σ` with a recording of the run in progress. -/
structure Recorded (σ : Type) where
  inner : σ
  recorder : Recorder
  lastSummary : Option RunSummary

namespace Recorded

variable {σ : Type}

/-- A strategy before its first run. -/
def ofStrategy (inner : σ) : Recorded σ :=
  ⟨inner, .empty, none⟩

/-- The state after a request that left the inner strategy as given. -/
def withInner (s : Recorded σ) (inner : σ) : Recorded σ :=
  { s with inner }

/-- The last finished run as a mintrace. -/
def mintrace [Strategy σ] (s : Recorded σ) (c : Configuration) : Option Dump :=
  s.lastSummary.map fun summary =>
    summary.tree.toMintrace (.ofConfiguration c (Strategy.isFair s.inner))

/-- Pass a request on to the inner strategy. -/
def delegate {α : Type} (s : Recorded σ) (request : σ → α × σ) : α × Recorded σ :=
  let (answer, inner) := request s.inner
  (answer, s.withInner inner)

end Recorded

instance {σ : Type} [Strategy σ] : Strategy (Recorded σ) where
  nextOperation s choices current := s.delegate fun i => Strategy.nextOperation i choices current
  nextBoolean s max := s.delegate fun i => Strategy.nextBoolean i max
  nextInteger s max := s.delegate fun i => Strategy.nextInteger i max
  forceOperation s id choices current :=
    s.delegate fun i => Strategy.forceOperation i id choices current
  forceBoolean s max b := s.delegate fun i => Strategy.forceBoolean i max b
  forceInteger s max n := s.delegate fun i => Strategy.forceInteger i max n
  prepare s := { s with recorder := .empty }.delegate Strategy.prepare
  reset s := ⟨Strategy.reset s.inner, .empty, s.lastSummary⟩
  steps s := Strategy.steps s.inner
  boundReached s := Strategy.boundReached s.inner
  isFair s := Strategy.isFair s.inner
  describe s := "ProgramModel(" ++ Strategy.describe s.inner ++ ")"
  observe s n := ⟨Strategy.observe s.inner n, s.recorder.record n, s.lastSummary⟩
  onSend s sender target event :=
    let (delivery, inner) := Strategy.onSend s.inner sender target event
    (delivery, ⟨inner, s.recorder.recordDelivery sender target event delivery, s.lastSummary⟩)
  onEnd s outcome :=
    let recorder := s.recorder.recordEnd (outcome.bug.map (·.kind))
    let (result, inner) := Strategy.onEnd s.inner outcome
    (result, ⟨inner, recorder, some recorder.summary⟩)

end Interleave
