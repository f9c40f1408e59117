import Interleave.Ascending
import Interleave.EventTree.Step

/-!
# Event trees

The steps of one run in order, with the sends whose delivery was withheld and the run's result. A
step's index is its place, and links are indices that point forward; `EventTree.validate` checks
this and names the first fault.
-/

namespace Interleave

/-- The steps of one run and its result. -/
structure EventTree where
  steps : Array Step
  /-- Indices of the withheld sends. -/
  withheld : List Nat
  ascending : Ascending withheld := by exact .nil
  bugFound : Bool
  /-- Step that triggered the bug. -/
  bugStep : Option Nat
  /-- The monitor that a liveness bug left hot. -/
  livenessMonitor : Option String
  deriving DecidableEq

/-- The two links of a step. -/
inductive LinkKind where
  | direct
  | created
  deriving DecidableEq

/-- What can be wrong with the steps of a tree. -/
inductive TreeFault where
  | empty
  | badRoot (root : Step)
  | badIndex (position index : Nat)
  | dangling (position : Nat) (kind : LinkKind) (child : Nat)
  | withheldNonSend (index : Nat)
  | bugStepPastEnd (step last : Nat)
  deriving DecidableEq

/-- The wording of a fault. -/
def TreeFault.message : TreeFault → String
  | .empty => "tree has no steps"
  | .badRoot root => "root step must be the harness start, found " ++ root.text
  | .badIndex position index =>
    "step at position " ++ Text.showNat position ++ " has index " ++ Text.showNat index
  | .dangling position kind child =>
    "step " ++ Text.showNat position ++ " has dangling " ++
      (match kind with
        | .direct => "direct"
        | .created => "created") ++
      " child " ++ Text.showNat child
  | .withheldNonSend index => "withheld step " ++ Text.showNat index ++ " is not a send"
  | .bugStepPastEnd step last =>
    "bug step " ++ Text.showNat step ++ " is past the last step " ++ Text.showNat last

namespace EventTree

/-- The step that starts every run. -/
def rootStep : Step where
  index := 0
  kind := .start
  source := .harness
  target := .harness
  event := none
  directChild := none
  createdChild := none
  signature := ⟨none, 0, 0, .harness, .start⟩

/-- The tree of the root alone. -/
def root : EventTree where
  steps := #[rootStep]
  withheld := []
  bugFound := false
  bugStep := none
  livenessMonitor := none

instance : Inhabited EventTree := ⟨root⟩

/-- The number of steps. -/
def size (t : EventTree) : Nat :=
  t.steps.size

/-- The index of the last step. -/
def lastIndex (t : EventTree) : Nat :=
  t.size - 1

/-- Whether the delivery of the given step was withheld. -/
def isWithheld (t : EventTree) (index : Nat) : Bool :=
  t.withheld.contains index

/-- The tree of a run in which the given send was withheld. -/
def withhold (t : EventTree) (index : Nat) : EventTree :=
  { t with
    withheld := insertAscending index t.withheld
    ascending := t.ascending.insert index }

/-- The tree of a run that found a bug at the given step. -/
def setBug (t : EventTree) (step : Option Nat) : EventTree :=
  { t with bugFound := true, bugStep := step }

/-- The kinds and endpoints of the steps, in order. -/
def shape (t : EventTree) : List (StepKind × OperationId × OperationId) :=
  t.steps.toList.map fun s => (s.kind, s.source, s.target)

/-- The number of steps that took a scheduling decision. -/
def schedulingSteps (t : EventTree) : Nat :=
  t.steps.toList.countP fun s => !s.kind.isChoice

/-- Whether two trees are equal up to the parts of signatures that are not compared. -/
def agrees (a b : EventTree) : Bool :=
  a.size == b.size && (a.steps.toList.zip b.steps.toList).all (fun (x, y) => x.agrees y) &&
    decide ({ a with steps := b.steps } = b)

/-- The fault of a link from the given place, if the link does not point forward into the tree. -/
def linkFault? (size position : Nat) (kind : LinkKind) (child : Option Nat) : Option TreeFault :=
  match child with
  | some c => if c ≤ position ∨ size ≤ c then some (.dangling position kind c) else none
  | none => none

/-- The first fault of the step at the given place. -/
def stepFault? (size position : Nat) (s : Step) : Option TreeFault :=
  if s.index ≠ position then some (.badIndex position s.index)
  else (linkFault? size position .direct s.directChild).or
    (linkFault? size position .created s.createdChild)

/-- The first fault of a tree, in this order: root, steps, withheld sends, bug step. -/
def fault? (t : EventTree) : Option TreeFault :=
  match t.steps[0]? with
  | none => some .empty
  | some r =>
    if r.kind ≠ .start ∨ r.source ≠ .harness then some (.badRoot r)
    else
      let steps := t.steps.toList.zipIdx.findSome? fun (s, position) => stepFault? t.size position s
      let isSend (i : Nat) : Bool := (t.steps[i]?.map (·.kind)) == some .send
      let withheld := (t.withheld.find? fun i => !isSend i).map TreeFault.withheldNonSend
      let bug := (t.bugStep.filter (t.size ≤ ·)).map fun s => TreeFault.bugStepPastEnd s t.lastIndex
      (steps.or withheld).or bug

/-- The tree itself if it has no fault. -/
def validate (t : EventTree) : Except TreeFault EventTree :=
  match t.fault? with
  | some f => .error f
  | none => .ok t

/-- The tree of the given steps and withheld sends, without a result. -/
def ofSteps (steps : List Step) (withheld : List Nat) : Except TreeFault EventTree :=
  validate {
    steps := steps.toArray
    withheld := insertAllAscending [] withheld
    ascending := Ascending.insertAll withheld .nil
    bugFound := false
    bugStep := none
    livenessMonitor := none }

/-- One line of the shown form: the step and its marks. -/
def line (t : EventTree) (s : Step) : String :=
  s.text ++ (if t.isWithheld s.index then " [withheld]" else "") ++
    (if t.bugStep = some s.index then " [bug]" else "") ++ "\n"

/-- The shown form: one line a step. -/
def text (t : EventTree) : String :=
  String.join (t.steps.toList.map t.line)

end EventTree

end Interleave
