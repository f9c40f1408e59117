import Interleave.EventTree.Mintrace
import Interleave.EventTree.Recorder
import Interleave.Minimization.Report
import Interleave.Strategy.Replay

/-!
# Minimizing strategies

A session is the strategy that carries out a minimization: each run replays the input schedule or
follows the editor's guide while a recorder takes down what happens, and the end of the run is
handed to the editor. Where schedule or guide have nothing more to say, an optional suffix strategy
decides, or else the first enabled operation, `false` and 0.
-/

namespace Interleave.Minimization

/-- Who decides the steps of the current run. -/
inductive Mode where
  /-- The input schedule. -/
  | replay
  /-- The editor's guide. -/
  | guided
  /-- The suffix. -/
  | free
  deriving DecidableEq

/-- The state of a minimizing strategy with a suffix strategy of states `τ`. -/
structure Session (τ : Type) where
  editor : Editor
  /-- The input, if it is a schedule. -/
  schedule : Option Schedule
  replay : Option (Replay τ)
  suffix : Option τ
  mode : Mode
  recorder : Recorder
  header : Header
  /-- Entries of the input. -/
  originalLength : Nat
  /-- Number of steps above which a run is cut off, or 0 for no bound. -/
  maxSteps : Nat
  steps : Nat

namespace Session

variable {τ : Type}

/-- Plan the run that the editor asks for. -/
def plan (s : Session τ) : Session τ :=
  let editor := s.editor.beginRun
  let s := { s with editor, recorder := .empty, steps := 0 }
  match editor.phase, s.schedule with
  | .scheduleReplay, some schedule =>
    { s with replay := some (.ofSchedule schedule false none), mode := .replay }
  | phase, _ => { s with mode := if phase.isGuided then .guided else .free }

/-- A session with a started editor. The step bound allows for the input and for a monitor to
overheat after it. -/
def ofEditor (editor : Editor) (schedule : Option Schedule) (header : Header) (c : Configuration)
    (originalLength : Nat) (suffix : Option τ) : Session τ :=
  plan {
    editor, schedule, header, originalLength, suffix
    replay := none
    mode := .replay
    recorder := .empty
    maxSteps := Nat.min (originalLength + c.livenessThreshold) (UInt64.size - 1)
    steps := 0 }

/-- A session that starts from a schedule. -/
def ofSchedule (schedule : Schedule) (header : Header) (c : Configuration) (settings : Settings)
    (policy : MatchPolicy) (suffix : Option τ) : Session τ :=
  ofEditor (Editor.new settings policy).startFromSchedule (some schedule) header c schedule.size
    suffix

/-- A session that starts from an event tree. -/
def ofTree (tree : EventTree) (header : Header) (c : Configuration) (settings : Settings)
    (policy : MatchPolicy) (suffix : Option τ) : Session τ :=
  ofEditor ((Editor.new settings policy).startFromTree tree) none header c tree.size suffix

/-- A session that starts from what a dump holds, under the settings of its header. -/
def ofDump (d : Dump) (c : Configuration) (settings : Settings) (policy : MatchPolicy)
    (suffix : Option τ) : Except TreeError (Session τ) :=
  let c := d.header.applyTo c
  let header :=
    { d.header with
      isMintrace := false, bugFound := false, bugStep := none, livenessMonitor := none }
  match d.body with
  | .schedule schedule => .ok (ofSchedule schedule header c settings policy suffix)
  | .mintrace _ => do return ofTree (← EventTree.ofMintrace d) header c settings policy suffix

/-- Whether the minimization is over. -/
def isCompleted (s : Session τ) : Bool :=
  s.editor.isCompleted

/-- The best tree as a mintrace. -/
def bestMintrace (s : Session τ) : Option Dump :=
  s.editor.best.map (·.toMintrace s.header)

/-- A short description. -/
def describe [Strategy τ] (s : Session τ) : String :=
  match s.suffix with
  | some suffix => "Minimize(" ++ Strategy.describe suffix ++ ")"
  | none => "Minimize"

/-- The report on the minimization so far. -/
def report [Strategy τ] (s : Session τ) : Report :=
  .ofEditor s.editor s.describe s.header.testMethod s.originalLength

/-- The session one step later. -/
def countStep (s : Session τ) : Session τ :=
  { s with steps := s.steps + 1 }

/-- The answer of the suffix, or the given one without a suffix. -/
def askSuffix {α : Type} (s : Session τ) (request : τ → Answer α × τ) (otherwise : Option α) :
    Answer α × Session τ :=
  match s.suffix with
  | some suffix =>
    let (answer, suffix) := request suffix
    (answer, { s with suffix := some suffix })
  | none => (.ok otherwise, s)

/-- The answer of the suffix, which decides from now on. -/
def goFree {α : Type} (s : Session τ) (request : τ → Answer α × τ) (otherwise : Option α) :
    Answer α × Session τ :=
  askSuffix { s with mode := .free } request otherwise

/-- The answer of the replay of the input schedule, or behind its end that of the suffix. -/
def askReplay {α : Type} (s : Session τ) (fromReplay : Replay τ → Answer α × Replay τ)
    (fromSuffix : τ → Answer α × τ) (otherwise : Option α) : Answer α × Session τ :=
  match s.replay with
  | none => (.error (.other "no schedule to replay"), s)
  | some replay =>
    let (answer, replay) := fromReplay replay
    let s := { s with replay := some replay }
    match answer with
    | .error (.exhausted _) => s.goFree fromSuffix otherwise
    | answer => (answer, s)

section Requests

variable [Strategy τ]

/-- The next operation. -/
def nextOperation (s : Session τ) (choices : List Snapshot) (current : OperationId) :
    Answer OperationId × Session τ :=
  let s := s.countStep
  let fromSuffix (t : τ) := Strategy.nextOperation t choices current
  let otherwise := (choices.find? (·.enabled)).map (·.id)
  match s.mode with
  | .replay => s.askReplay (Strategy.nextOperation · choices current) fromSuffix otherwise
  | .guided =>
    match s.editor.nextOperation choices with
    | (some id, editor) => (.ok (some id), { s with editor })
    | (none, editor) => { s with editor }.goFree fromSuffix otherwise
  | .free => s.goFree fromSuffix otherwise

/-- The next Boolean. The guide keeps deciding where it has none. -/
def nextBoolean (s : Session τ) (max : UInt32) : Answer Bool × Session τ :=
  let s := s.countStep
  let fromSuffix (t : τ) := Strategy.nextBoolean t max
  match s.mode with
  | .replay => s.askReplay (Strategy.nextBoolean · max) fromSuffix (some false)
  | .guided =>
    match s.editor.nextBoolean with
    | (some b, editor) => (.ok (some b), { s with editor })
    | (none, editor) => { s with editor }.askSuffix fromSuffix (some false)
  | .free => s.goFree fromSuffix (some false)

/-- The next integer below `max`. The guide keeps deciding where it has none. -/
def nextInteger (s : Session τ) (max : UInt32) : Answer UInt32 × Session τ :=
  let s := s.countStep
  let fromSuffix (t : τ) := Strategy.nextInteger t max
  match s.mode with
  | .replay => s.askReplay (Strategy.nextInteger · max) fromSuffix (some 0)
  | .guided =>
    match s.editor.nextInteger max with
    | (.error e, editor) => (.error e, { s with editor })
    | (.ok (some n), editor) => (.ok (some n), { s with editor })
    | (.ok none, editor) => { s with editor }.askSuffix fromSuffix (some 0)
  | .free => s.goFree fromSuffix (some 0)

/-- Prepare the next run, unless the minimization is over. An error of the suffix comes first. -/
def prepare (s : Session τ) : Except StrategyError Bool × Session τ :=
  if s.isCompleted then (.ok false, s)
  else match s.suffix with
    | none => (.ok true, s.plan)
    | some suffix =>
      match Strategy.prepare suffix with
      | (.error e, suffix) => (.error e, { s with suffix := some suffix })
      | (.ok _, suffix) => (.ok true, { s with suffix := some suffix }.plan)

/-- Record a send and decide its delivery. -/
def onSend (s : Session τ) (sender target : OperationId) (event : Event) : Delivery × Session τ :=
  let (delivery, editor) := s.editor.onSend event
  (delivery, { s with editor, recorder := s.recorder.recordDelivery sender target event delivery })

/-- Hand the run to the editor and, if that was in order, to the suffix. -/
def onEnd (s : Session τ) (outcome : Outcome) : Except StrategyError Unit × Session τ :=
  let bug := outcome.bug.map (·.kind)
  let (verdict, editor) := s.editor.endRun bug (s.recorder.recordEnd bug).tree
  let s := { s with editor, recorder := .empty }
  match verdict, s.suffix with
  | .error e, _ => (.error e, s)
  | .ok (), none => (.ok (), s)
  | .ok (), some suffix =>
    let (result, suffix) := Strategy.onEnd suffix outcome
    (result, { s with suffix := some suffix })

end Requests

end Session

instance {τ : Type} [Strategy τ] : Strategy (Session τ) where
  nextOperation := Session.nextOperation
  nextBoolean := Session.nextBoolean
  nextInteger := Session.nextInteger
  forceOperation s _ _ _ :=
    (.error (.unsupported "forcing a scheduling decision during minimization"), s)
  forceBoolean s _ _ := (.error (.unsupported "forcing a boolean choice during minimization"), s)
  forceInteger s _ _ := (.error (.unsupported "forcing an integer choice during minimization"), s)
  prepare := Session.prepare
  reset s := { s with suffix := s.suffix.map Strategy.reset }.plan
  steps s := s.steps
  boundReached s := 0 < s.maxSteps && s.maxSteps < s.steps
  isFair s := s.suffix.any Strategy.isFair
  describe s := s.describe
  observe s n := { s with recorder := s.recorder.record n }
  onSend := Session.onSend
  onEnd := Session.onEnd

end Interleave.Minimization
