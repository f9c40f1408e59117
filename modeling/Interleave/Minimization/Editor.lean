import Interleave.Minimization.Cursor
import Interleave.Minimization.Phase
import Interleave.Minimization.Settings
import Interleave.Outcome

/-!
# The editor

The state machine of a minimization. While a run follows the guide, the editor answers for the
guide's decisions and says which sends are withheld. At the end of the run it takes one verdict,
whether the bug was reproduced, and moves on: `Editor.endRun` is the only transition between phases
after the start. Outside the search a run that reproduces the bug becomes the new best tree.
-/

namespace Interleave.Minimization

/-- The state of a minimization. -/
structure Editor where
  settings : Settings
  policy : MatchPolicy
  phase : Phase
  /-- The smallest tree found so far that shows the bug; it guides the runs. -/
  best : Option EventTree
  /-- The bug that the first accepted run found. -/
  target : Option BugKind
  /-- Candidates to be tried, the next one first. -/
  untried : List Range
  /-- Number of droppable sends in the best tree when the edits began. -/
  candidates : Nat
  cursor : Option Cursor
  /-- Number of droppable sends in the current run so far. -/
  droppableSeen : Nat
  /-- Reproductions in a row of the current candidate. -/
  confirmations : Nat
  /-- Number of runs taken into account. -/
  iterations : Nat
  /-- The finished trials, in order. -/
  trials : List Trial
  /-- Number of finished trials of the search. -/
  searchTrials : Nat

namespace Editor

/-- An editor that has not been started. -/
def new (settings : Settings) (policy : MatchPolicy) : Editor where
  settings := settings
  policy := policy
  phase := .initial
  best := none
  target := none
  untried := []
  candidates := 0
  cursor := none
  droppableSeen := 0
  confirmations := 0
  iterations := 0
  trials := []
  searchTrials := 0

/-- Start from a schedule, which is replayed first. -/
def startFromSchedule (e : Editor) : Editor :=
  { e with phase := .scheduleReplay }

/-- Start from an event tree. -/
def startFromTree (e : Editor) (tree : EventTree) : Editor :=
  { e with best := some tree, phase := .treeReplay .edits }

/-- Whether the minimization is over. -/
def isCompleted (e : Editor) : Bool :=
  e.phase.isCompleted

/-! ### Decisions during a run -/

/-- Plan a run: in a guided phase a new cursor follows the best tree. -/
def beginRun (e : Editor) : Editor :=
  { e with
    droppableSeen := 0
    cursor := if e.phase.isGuided then e.best.map (Cursor.start · e.phase.cutoff) else none }

/-- The operation that takes the next guide step, or none at the end of the guide. -/
def nextOperation (e : Editor) (choices : List Snapshot) : Option OperationId × Editor :=
  match e.cursor with
  | none => (none, e)
  | some cursor =>
    let (id, cursor) := cursor.nextOperation e.policy choices
    (id, { e with cursor := some cursor })

/-- The guide's choice of the requested type for the running operation. -/
def nextChoice (e : Editor) (boolean : Bool) : Option StepKind × Editor :=
  match e.cursor with
  | none => (none, e)
  | some cursor =>
    let (kind, cursor) := cursor.nextChoice boolean
    (kind, { e with cursor := some cursor })

/-- The guide's Boolean for the running operation. -/
def nextBoolean (e : Editor) : Option Bool × Editor :=
  match e.nextChoice true with
  | (some (.boolean b), e) => (some b, e)
  | (_, e) => (none, e)

/-- The guide's integer for the running operation. One that is not below `max` makes the guide
unusable. -/
def nextInteger (e : Editor) (max : UInt32) : Except StrategyError (Option UInt32) × Editor :=
  match e.nextChoice false with
  | (some (.integer n), e) =>
    if isInRange n max then (.ok (some n), e) else (.error (.outOfRange n max), e)
  | (_, e) => (.ok none, e)

/-- The guide's send that the running operation is taking. -/
def guideSend? (cursor : Cursor) : Option Step :=
  cursor.activeStep?.filter (·.kind = .send)

/-- Whether the current candidate withholds the droppable send of the given number. -/
def withholds (e : Editor) (number : Nat) : Bool :=
  match e.phase with
  | .edit range => range.contains number
  | _ => false

/-- Decide the delivery of a send by the running operation. It is withheld if it takes a withheld
guide send or is a droppable send of the current candidate, and with it the guide's receive is
deleted. Behind the end of the guide sends are delivered and not counted. -/
def onSend (e : Editor) (event : Event) : Delivery × Editor :=
  match e.cursor with
  | none => (.deliver, e)
  | some cursor =>
    let send := guideSend? cursor
    if cursor.reachedEnd && send.isNone then (.deliver, e)
    else
      let droppable := e.settings.isDroppable event.name
      let e := { e with droppableSeen := e.droppableSeen + droppable.toNat }
      let guideWithholds := send.any fun step => cursor.guide.isWithheld step.index
      if guideWithholds || (droppable && e.withholds e.droppableSeen) then
        (.withhold, { e with cursor := some (cursor.deleteLink (send.bind (·.createdChild))) })
      else (.deliver, e)

/-! ### Verdicts on runs -/

/-- Whether a run that found the given bug, if any, reproduced the bug that is looked for. -/
def reproduces (e : Editor) (bug : Option BugKind) : Bool :=
  match e.target, bug with
  | _, none => false
  | none, some _ => true
  | some target, some kind => target = kind

/-- Take a run as the new best one. The first run taken settles which bug is looked for. -/
def accept (e : Editor) (bug : Option BugKind) (tree : EventTree) : Editor :=
  { e with target := e.target.or bug, best := some tree }

/-- The number of sends in a tree that may be withheld. -/
def countDroppable (s : Settings) (tree : EventTree) : Nat :=
  tree.steps.toList.countP fun step => step.kind = .send && step.eventName.any s.isDroppable

/-- The first candidates among the given number of droppable sends. -/
def layOut (layout : Layout) (count : Nat) : List Range :=
  match layout, count with
  | _, 0 => []
  | .linear, count => (List.range count).map fun i => ⟨i + 1, i + 1⟩
  | .bisect, count => [⟨1, count⟩]

/-- Go on to the next candidate or, behind the last one, to what follows the edits. -/
def nextCandidate (e : Editor) : Editor :=
  match e.untried with
  | range :: rest => { e with untried := rest, phase := .edit range }
  | [] =>
    { e with phase := if e.settings.findsTransition then .treeReplay .search else .completed none }

/-- Begin the edits of the best tree. -/
def beginEdits (e : Editor) : Editor :=
  let count := (e.best.map (countDroppable e.settings)).getD 0
  { e with candidates := count, untried := layOut e.settings.layout count }.nextCandidate

/-- Settle the current candidate. -/
def settle (e : Editor) (trial : Trial) : Editor :=
  { e with confirmations := 0, trials := e.trials ++ [trial] }

/-- Take the verdict on a run that tried a candidate. A candidate that reproduced the bug often
enough is accepted; one that failed once is split. -/
def endTrial (e : Editor) (range : Range) (reproduced : Bool) (bug : Option BugKind)
    (tree : EventTree) : Editor :=
  if reproduced then
    if e.confirmations + 1 < Nat.max e.settings.replays 1 then
      { e with confirmations := e.confirmations + 1 }
    else ((e.settle ⟨range, true⟩).accept bug tree).nextCandidate
  else
    let e := e.settle ⟨range, false⟩
    { e with untried := range.halves ++ e.untried }.nextCandidate

/-- Go on with the search between two indices, or end it where they meet. -/
def continueSearch (e : Editor) (left right : Nat) : Editor :=
  { e with phase := if right ≤ left then .completed (some left) else .search left right }

/-- Begin the search in the best tree. -/
def beginSearch (e : Editor) : Editor :=
  e.continueSearch 0 ((e.best.map (·.lastIndex)).getD 0)

/-- What follows the replay of a tree. -/
def enter (e : Editor) : Stage → Editor
  | .edits => e.beginEdits
  | .search => e.beginSearch

/-- Take a finished run into account: the bug it found and its tree. -/
def endRun (e : Editor) (bug : Option BugKind) (tree : EventTree) :
    Except StrategyError Unit × Editor :=
  let reproduced := e.reproduces bug
  let e := { e with iterations := e.iterations + 1, cursor := none }
  match e.phase with
  | .initial => (.error (.other "trace editor was never started"), e)
  | .scheduleReplay =>
    if reproduced then (.ok (), { e.accept bug tree with phase := .treeReplay .edits })
    else (.error (.notReproducible .schedule), e)
  | .treeReplay next =>
    if reproduced then (.ok (), (e.accept bug tree).enter next)
    else (.error (.notReproducible .eventTree), e)
  | .edit range => (.ok (), e.endTrial range reproduced bug tree)
  | .search left right =>
    let middle := Phase.middle left right
    let e := { e with searchTrials := e.searchTrials + 1 }
    (.ok (),
      if reproduced then e.continueSearch left middle else e.continueSearch (middle + 1) right)
  | .completed _ => (.ok (), e)

end Editor

end Interleave.Minimization
