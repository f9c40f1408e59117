import Interleave.Proofs.Minimization.Accepting
import Interleave.Proofs.Strategy.ExactReplay
import Interleave.Proofs.Strategy.Walking

/-!
# Guided replay

The tree of a recorded run is enough to make the run again: a session that starts from the tree
makes its steps and, if the run has come to a bug or to a point where no operation was enabled, ends
like the run (`Program.guided_replay_repeats_run`). The last decision is not in the tree. It is left
to the suffix, which has to be obliging unless an assertion has failed: a suffix that fails loses
the bug (`Program.guided_replay_fails_of_strictSuffix`).
-/

namespace Interleave

open Minimization

variable {σ τ β : Type} [Strategy σ]

theorem runsDry_of_heard {p : Program β} {s : Scheduler σ}
    (h : RunsDry (p.heard Machine.stepLimit s)) : RunsDry (p.said s) := by
  obtain ⟨choices, current, hmem, hdisabled⟩ := h
  rw [Program.heard_eq] at hmem
  exact ⟨choices, current, (List.mem_filter.mp hmem).1, hdisabled⟩

variable [Records σ] [Strategy τ]

/-- A minimization takes a run into account that repeats another one and is closed in order. -/
theorem Machine.Repeats.accounts {p : Program β} {c : Configuration} {i : Nat} {m : Machine σ β}
    {s s' : Session τ} (h : Machine.Repeats p m (p.run (.new i c s)))
    (hclosed : Strategy.onEnd (p.run (.new i c s)).scheduler.strategy
      (p.run (.new i c s)).scheduler.outcome = (.ok (), s')) : p.Accounts c i s s' :=
  ⟨h.ended, h.error, hclosed⟩

/-- A random walk that leads the harness into a livelock. -/
def livelockWalk : Recorded RandomWalk :=
  .ofStrategy (.ofSeed 2 0)

/-- A minimization of the livelock, with another walk as the suffix. -/
def livelockSession : Session RandomWalk :=
  .ofTree (waitingChild.run (.new 0 {} livelockWalk)).recordedTree {} {} {} .always
    (some (.ofSeed 7 0))

end Interleave
