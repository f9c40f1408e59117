import Interleave.Minimization.Editor

/-!
# Minimization reports

What a minimization has found: the best tree, its withheld sends and its bug, the trials and the
critical transition. A report is saved as JSON with `Report.toJson`, loaded with `Report.ofJson?`
and shown with `Report.text`.
-/

namespace Interleave.Minimization

/-- The result of a minimization. -/
structure Report where
  /-- Description of the strategy. -/
  strategy : String
  testMethod : Option String
  /-- Entries of the input. -/
  originalLength : Nat
  /-- Steps of the best tree. -/
  minimizedLength : Nat
  /-- Steps of the best tree whose delivery was withheld. -/
  withheldSends : List Nat
  transition : Option Nat
  bugStep : Option Nat
  iterations : Nat
  trials : List Trial
  /-- The steps of the best tree. -/
  steps : List Step
  deriving DecidableEq

namespace Report

/-- The report on the state of an editor. -/
def ofEditor (e : Editor) (strategy : String) (testMethod : Option String) (originalLength : Nat) :
    Report where
  strategy := strategy
  testMethod := testMethod
  originalLength := originalLength
  minimizedLength := (e.best.map (·.size)).getD 0
  withheldSends := (e.best.map (·.withheld)).getD []
  transition := e.phase.transition
  bugStep := e.best.bind (·.bugStep)
  iterations := e.iterations
  trials := e.trials
  steps := (e.best.map (·.steps.toList)).getD []

/-- The number of trials that reproduced the bug. -/
def acceptedTrials (r : Report) : Nat :=
  r.trials.countP (·.reproduced)

/-- The JSON form of a report; an absent test method is left out. -/
def toJson (r : Report) : Json :=
  .record ([("strategy", .text r.strategy)] ++
    Json.optionalField "test_method" .text r.testMethod ++ [
    ("original_length", .natural r.originalLength),
    ("minimized_length", .natural r.minimizedLength),
    ("withheld_sends", .array (r.withheldSends.map .natural)),
    ("critical_transition", .optional .natural r.transition),
    ("bug_step", .optional .natural r.bugStep),
    ("iterations", .natural r.iterations),
    ("edit_trials", .array (r.trials.map Trial.toJson)),
    ("steps", .array (r.steps.map Step.toJson))])

/-- The report that a JSON value denotes. -/
def ofJson? (j : Json) : Option Report :=
  match j.fields [("strategy", .required), ("test_method", .defaulted),
      ("original_length", .required), ("minimized_length", .required),
      ("withheld_sends", .required),
      ("critical_transition", .nullable), ("bug_step", .nullable), ("iterations", .required),
      ("edit_trials", .required), ("steps", .required)] with
  | some [strategy, method, original, minimized, withheld, transition, bugStep, iterations, trials,
      steps] =>
    do return {
      strategy := ← Json.present Json.toText? strategy
      testMethod := ← Json.toOption? Json.toText? method
      originalLength := ← Json.present Json.toSize? original
      minimizedLength := ← Json.present Json.toSize? minimized
      withheldSends := ← Json.present (Json.toList? Json.toSize?) withheld
      transition := ← Json.toOption? Json.toSize? transition
      bugStep := ← Json.toOption? Json.toSize? bugStep
      iterations := ← Json.present Json.toSize? iterations
      trials := ← Json.present (Json.toList? Trial.ofJson?) trials
      steps := ← Json.present (Json.toList? Step.ofJson?) steps }
  | _ => none

/-- A heavy rule between lines. -/
def heavyRule : String :=
  "═══════════════════════════════════════════════════════════════════════\n"

/-- One line of the heading: a label padded to a column, and a value. -/
def entry (label value : String) : String :=
  Text.padRight 24 label ++ value ++ "\n"

/-- One line of the heading for a value that may be absent. -/
def optionalEntry (label : String) (value : Option String) : String :=
  (value.map (entry label)).getD ""

/-- The wording of the critical transition. -/
def transitionText (r : Report) : String :=
  match r.transition with
  | some step => "step " ++ Text.showNat step
  | none => "not searched"

/-- The heading of the report. -/
def headingText (r : Report) : String :=
  heavyRule ++ "  lockstep Minimization Report\n" ++ heavyRule ++ "\n" ++
    optionalEntry "Test:" r.testMethod ++
    entry "Strategy:" r.strategy ++
    entry "Iterations:" (Text.showNat r.iterations) ++
    entry "Original length:" (Text.showNat r.originalLength) ++
    entry "Minimized length:" (Text.showNat r.minimizedLength) ++
    entry "Withheld sends:" (Text.showNat r.withheldSends.length) ++
    entry "Critical transition:" r.transitionText ++
    optionalEntry "Bug step:" (r.bugStep.map Text.showNat) ++ "\n"

/-- The line of a trial. -/
def trialLine (t : Trial) : String :=
  "  sends " ++ Text.padLeft 3 (Text.showNat t.range.first) ++ "..=" ++
    Text.padRight 3 (Text.showNat t.range.last) ++ "  " ++
    (if t.reproduced then "kept bug" else "lost bug") ++ "\n"

/-- The part on the trials, if there were any. -/
def trialsText (r : Report) : String :=
  if r.trials.isEmpty then ""
  else
    "─── Withhold Trials ───────────────────────────────────────────────────\n" ++
      String.join (r.trials.map trialLine) ++ "\n"

/-- The line of a step with its marks. -/
def stepLine (r : Report) (s : Step) : String :=
  "  " ++ s.text ++ (if r.withheldSends.contains s.index then "  [withheld]" else "") ++
    (if r.bugStep = some s.index then "  ◄ bug" else "") ++ "\n"

/-- The part on the best tree, if there is one. -/
def stepsText (r : Report) : String :=
  if r.steps.isEmpty then ""
  else
    "─── Minimized Trace ───────────────────────────────────────────────────\n" ++
      String.join (r.steps.map r.stepLine)

/-- The report for a reader. -/
def text (r : Report) : String :=
  r.headingText ++ r.trialsText ++ r.stepsText

end Report

end Interleave.Minimization
