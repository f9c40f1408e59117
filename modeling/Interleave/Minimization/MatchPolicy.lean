import Interleave.EventTree.Step

/-!
# Matching operations with guide steps

When a run follows a guide tree, an enabled operation that is the source of the next guide step is
chosen. The policy says whether the action it has declared is close enough to the guide step to
count as that step.
-/

namespace Interleave.Minimization

/-- When an operation counts as taking a guide step. -/
structure MatchPolicy where
  name : String
  /-- Whether an operation counts as taking a guide step. -/
  accepts : Step → Snapshot → Bool

namespace MatchPolicy

/-- Whether a declared action is that of a guide step. Choices take no scheduling decision, so that
any declaration fits them. -/
def fits (guide : Step) (next : Declared) : Bool :=
  match guide.kind with
  | .start => next.kind = .start
  | .create => next.kind = .create && next.target = guide.target
  | .send => next.kind = .send && next.target = guide.target
  | .receive => next.kind = .receive
  | .boolean _ => true
  | .integer _ => true

/-- Every operation is accepted. -/
def always : MatchPolicy where
  name := "always"
  accepts _ _ := true

/-- An operation is accepted that has declared an action of the step's kind and, for a creation or a
send, its target. -/
def declaredAction : MatchPolicy where
  name := "declared-action"
  accepts guide candidate := fits guide candidate.next

end MatchPolicy

end Interleave.Minimization
