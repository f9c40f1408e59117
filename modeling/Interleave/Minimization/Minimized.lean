import Interleave.Engine
import Interleave.Minimization.Session

/-!
# Running a minimization

`minimize` lets an engine run a program under a minimizing strategy until the editor has finished.
The engine has no budget of iterations and does not stop at a bug: the strategy ends the session.
-/

namespace Interleave.Minimization

/-- What a finished minimization leaves. -/
structure Minimized where
  report : Report
  /-- The best tree, ready to be saved. -/
  mintrace : Dump
  deriving DecidableEq

/-- Why a minimization has no result. -/
inductive MinimizeError where
  | notReproducible (input : ReplayedInput)
  | incomplete
  | engine (error : EngineError)
  deriving DecidableEq

namespace MinimizeError

/-- The wording of a minimization error. -/
def message : MinimizeError → String
  | .notReproducible input => "cannot reproduce bug: " ++ input.message
  | .incomplete => "minimization stopped before the search completed"
  | .engine error => "engine error: " ++ error.message

/-- The minimization error that an engine error makes. -/
def ofEngineError (e : EngineError) : MinimizeError :=
  match e.source with
  | .notReproducible input => .notReproducible input
  | _ => .engine e

end MinimizeError

/-- The configuration of a minimization: all the iterations that a count can hold, and no stop at a
bug. -/
def sessionConfiguration (c : Configuration) : Configuration :=
  { c with stopAfterFirstBug := false, iterations := UInt64.size - 1 }

/-- What a session leaves when its engine has ended without an error. -/
def collect {τ : Type} [Strategy τ] (s : Session τ) : Except MinimizeError Minimized :=
  match s.isCompleted, s.bestMintrace with
  | true, some mintrace => .ok ⟨s.report, mintrace⟩
  | _, _ => .error .incomplete

/-- Run the program of a harness under a session until the editor has finished. -/
def minimize {τ ρ : Type} [Strategy τ] (c : Configuration) (session : Session τ)
    (harness : Harness (Session τ) ρ) (r : ρ) : Except MinimizeError Minimized × ρ :=
  match (Engine.new (sessionConfiguration c) session).run harness r with
  | (.error e, _, r) => (.error (.ofEngineError e), r)
  | (.ok (), e, r) => (collect e.strategy, r)

end Interleave.Minimization
