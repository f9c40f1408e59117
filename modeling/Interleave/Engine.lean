import Interleave.Scheduler.Calls
import Interleave.TestReport

/-!
# The engine

An engine runs a program many times under one strategy. Each iteration gets a scheduler of its own,
which takes the strategy over and gives it back; the run is accounted for in the report and the
strategy plans the next one. A `Harness` starts the program on a scheduler and returns when its run
is over, together with whatever it has learnt.
-/

namespace Interleave

/-- A way to run a program on a scheduler, with a state `ρ` of its own across runs. -/
abbrev Harness (σ ρ : Type) := ρ → Scheduler σ → ρ × Scheduler σ

/-- A strategy error and the iteration that ended with it, counted from 0. -/
structure EngineError where
  iteration : Nat
  source : StrategyError
  deriving DecidableEq

/-- The wording of an engine error. -/
def EngineError.message (e : EngineError) : String :=
  "iteration " ++ Text.showNat e.iteration ++ ": " ++ e.source.message

/-- The state of a session. -/
structure Engine (σ : Type) where
  config : Configuration
  strategy : σ
  report : TestReport
  /-- Iterations executed so far. -/
  iterations : Nat
  lastOutcome : Option Outcome

namespace Engine

variable {σ ρ : Type} [Strategy σ]

/-- A session before its first iteration. -/
def new (config : Configuration) (strategy : σ) : Engine σ :=
  ⟨config, strategy, {}, 0, none⟩

/-- One run of the program. A run on which no operation was registered is stopped here. -/
def runOnce (harness : Harness σ ρ) (e : Engine σ) (r : ρ) : Outcome × Engine σ × ρ :=
  let (r, s) := harness r (.new e.iterations e.config e.strategy)
  let s := if s.slots.isEmpty then s.stop else s
  (s.outcome,
    { e with
      strategy := s.strategy
      iterations := e.iterations + 1
      report := e.report.merge s.report },
    r)

/-- What follows an iteration: the end of the session, with an error or without, or another one. -/
inductive Verdict where
  | failed (source : StrategyError)
  | done
  | next

/-- Close an iteration: tell the strategy how it ended and let it plan the next one. -/
def close (e : Engine σ) (outcome : Outcome) : Verdict × Engine σ :=
  match outcome.error with
  | some source => (.failed source, { e with lastOutcome := some outcome })
  | none =>
    let (ended, strategy) := Strategy.onEnd e.strategy outcome
    let e := { e with strategy }
    match ended with
    | .error source => (.failed source, e)
    | .ok () =>
      let e := { e with lastOutcome := some outcome }
      if outcome.bug.isSome && e.config.stopAfterFirstBug then (.done, e)
      else
        let (more, strategy) := Strategy.prepare e.strategy
        let e := { e with strategy }
        match more with
        | .error source => (.failed source, e)
        | .ok true => (.next, e)
        | .ok false => (.done, e)

/-- Iterate, with the given budget left, from the iteration of the given number. -/
def iterate (harness : Harness σ ρ) : (budget iteration : Nat) → Engine σ → ρ →
    Except EngineError Unit × Engine σ × ρ
  | 0, _, e, r => (.ok (), e, r)
  | budget + 1, iteration, e, r =>
    let (outcome, e, r) := e.runOnce harness r
    match e.close outcome with
    | (.failed source, e) => (.error ⟨iteration, source⟩, e, r)
    | (.done, e) => (.ok (), e, r)
    | (.next, e) => iterate harness budget (iteration + 1) e r

/-- Run until the strategy is exhausted, the configured number of iterations is spent or, if so
configured, the first bug is found. -/
def run (harness : Harness σ ρ) (e : Engine σ) (r : ρ) : Except EngineError Unit × Engine σ × ρ :=
  iterate harness e.config.iterations 0 e r

end Engine

end Interleave
