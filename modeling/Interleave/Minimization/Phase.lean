import Interleave.Minimization.Trial
import Interleave.Text.Numeral

/-!
# Phases of a minimization

A minimization replays its input until it has an event tree that shows the bug, tries to withhold
sends, replays the tree that is left and searches for the critical transition: the last guide step
that has to be followed for the bug to occur. Every run belongs to one phase.
-/

namespace Interleave.Minimization

/-- What follows the replay of a tree. -/
inductive Stage where
  | edits
  | search
  deriving DecidableEq

/-- What the current run is for. -/
inductive Phase where
  | initial
  /-- Replay the schedule, to get the first event tree. -/
  | scheduleReplay
  /-- Replay the best tree as it is. -/
  | treeReplay (next : Stage)
  /-- Withhold the droppable sends of the given numbers. -/
  | edit (range : Range)
  /-- Search for the critical transition between two step indices. -/
  | search (left right : Nat)
  | completed (transition : Option Nat)
  deriving DecidableEq

namespace Phase

/-- Whether runs of this phase follow a guide tree. -/
def isGuided : Phase → Bool
  | .treeReplay _ => true
  | .edit _ => true
  | .search _ _ => true
  | _ => false

/-- Whether the minimization is over. -/
def isCompleted : Phase → Bool
  | .completed _ => true
  | _ => false

/-- The index in the middle of a search. -/
def middle (left right : Nat) : Nat :=
  left + (right - left) / 2

/-- The last guide step that runs of this phase may follow, if the guide is cut off. -/
def cutoff : Phase → Option Nat
  | .search left right => some (middle left right)
  | _ => none

/-- The critical transition, once it is known. -/
def transition : Phase → Option Nat
  | .completed transition => transition
  | _ => none

/-- The shown form of a phase. -/
def text : Phase → String
  | .initial => "initial"
  | .scheduleReplay => "schedule-trace replay"
  | .treeReplay _ => "minimized-trace replay"
  | .edit r => "trace edit [" ++ Text.showNat r.first ++ ", " ++ Text.showNat r.last ++ "]"
  | .search left right =>
    "critical-transition search [" ++ Text.showNat left ++ ", " ++ Text.showNat right ++ "]"
  | .completed _ => "epoch completed"

end Phase

end Interleave.Minimization
