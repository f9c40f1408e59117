import Interleave.CommandLine.Help
import Interleave.EventTree.Mintrace
import Interleave.Minimization.Markdown

/-!
# Output of the commands

What the program prints and how it exits, given its arguments and the contents of the one file that
the command reads. The error of a command is printed apart from its output, which may have begun.
-/

namespace Interleave.CommandLine

open Minimization (Report)

/-- Why a file cannot be read. -/
inductive ReadError where
  | missing
  | isDirectory
  | notDirectory
  | denied
  | other (text : String)
  deriving DecidableEq

/-- The wording of a read error. -/
def ReadError.message : ReadError → String
  | .missing => "No such file or directory (os error 2)"
  | .isDirectory => "Is a directory (os error 21)"
  | .notDirectory => "Not a directory (os error 20)"
  | .denied => "Permission denied (os error 13)"
  | .other text => text

/-- Why a command fails. -/
inductive CommandError where
  | traceFile (error : ReadError)
  | dump (error : DumpError)
  | tree (error : TreeError)
  | reportFile (error : ReadError)
  | reportJson
  | isMintrace (path : String)
  deriving DecidableEq

/-- The wording of a command's error; what the JSON reader has to say is left out. -/
def CommandError.message : CommandError → String
  | .traceFile e => "Trace error: IO error: " ++ e.message
  | .dump e => "Trace error: " ++ e.message
  | .tree e => "Event tree error: " ++ e.message
  | .reportFile e => "Serialization error: IO error: " ++ e.message
  | .reportJson => "Serialization error: JSON error"
  | .isMintrace path => path ++ " is a mintrace; use \x60tree\x60 instead"

/-- What the program prints, the error it ends with and its exit code. -/
structure Printed where
  code : UInt32 := 0
  output : String := ""
  error : Option CommandError := none
  deriving DecidableEq

namespace Printed

/-- A command that ends with an error behind some output. -/
def failedAfter (output : String) (error : CommandError) : Printed :=
  { code := 1, output, error := some error }

/-- A command that ends with an error. -/
def failed (error : CommandError) : Printed :=
  failedAfter "" error

/-- Arguments that are not in order. -/
def misused : Printed :=
  { code := 2 }

end Printed

/-- The contents of a file, read. -/
abbrev Contents := Except ReadError String

/-- The dump in a file. -/
def readDump (contents : Contents) : Except CommandError Dump := do
  (Dump.parse (← contents.mapError .traceFile)).mapError .dump

/-- The event tree in a file. -/
def readTree (contents : Contents) : Except CommandError EventTree := do
  (EventTree.ofMintrace (← readDump contents)).mapError .tree

/-- The report in a file. A directory is opened but not read. -/
def readReport (contents : Contents) : Except CommandError Report :=
  match contents with
  | .ok text =>
    match (Json.parse? text).bind Report.ofJson? with
    | some r => .ok r
    | none => .error .reportJson
  | .error .isDirectory => .error .reportJson
  | .error e => .error (.reportFile e)

/-- The output of a command that succeeds, or its error. -/
def printed (result : Except CommandError String) : Printed :=
  match result with
  | .ok output => { output }
  | .error e => .failed e

/-- A line of the listing of a header. -/
def infoLine (label value : String) : String :=
  "  " ++ label ++ ": " ++ value ++ "\n"

/-- A line of the listing for a value that may be absent. -/
def infoOptional (label : String) (value : Option String) : String :=
  (value.map (infoLine label)).getD ""

/-- The listing of a header. -/
def headerListing (h : Header) : String :=
  infoLine "Kind" (if h.isMintrace then "mintrace" else "schedule") ++
    infoOptional "Test method" h.testMethod ++
    infoLine "Fair scheduling" (Decision.showBool h.fairScheduling) ++
    infoLine "Cycle detection" (Decision.showBool h.cycleDetection) ++
    infoOptional "Liveness temperature threshold" (h.livenessThreshold.map Text.showNat) ++
    infoLine "Bug found" (Decision.showBool h.bugFound) ++
    infoOptional "Bug step" (h.bugStep.map Text.showNat)

/-- The listing of the sizes of a tree. -/
def treeListing (t : EventTree) : String :=
  infoLine "Steps" (Text.showNat t.size) ++
    infoLine "Scheduling steps" (Text.showNat t.schedulingSteps) ++
    infoLine "Withheld sends" (Text.showNat t.withheld.length) ++
    infoOptional "Liveness monitor" t.livenessMonitor

/-- Show the header and the size of a saved run. The header is printed before a tree is read. -/
def info (path : String) (contents : Contents) : Printed :=
  match readDump contents with
  | .error e => .failed e
  | .ok dump =>
    let heading := "Trace: " ++ path ++ "\n" ++ headerListing dump.header
    match dump.body with
    | .schedule s =>
      { output := heading ++ infoLine "Decisions" (Text.showNat s.size) ++
          infoLine "Scheduling choices" (Text.showNat s.schedulingChoices) }
    | .mintrace _ =>
      match EventTree.ofMintrace dump with
      | .ok tree => { output := heading ++ treeListing tree }
      | .error e => .failedAfter heading (.tree e)

/-- Print an event tree. -/
def tree (format : TreeFormat) (contents : Contents) : Printed :=
  printed do
    let tree ← readTree contents
    return match format with
      | .text => tree.text
      | .json => Json.pretty (.array (tree.steps.toList.map Step.toJson)) ++ "\n"

/-- The kind and the value of a decision in the listing of a schedule. -/
def decisionColumns : Decision → String × String
  | .schedule id => ("schedule", id.text)
  | .boolean b => ("bool", Decision.showBool b)
  | .fairBoolean fairness b => ("fair-bool", Decision.showBool b ++ " (" ++ fairness ++ ")")
  | .integer n => ("int", Text.showNat n.toNat)

/-- A line of the listing of a schedule. -/
def scheduleLine (index kind value : String) : String :=
  Text.padRight 8 index ++ " " ++ Text.padRight 12 kind ++ " " ++ value ++ "\n"

/-- The listing of the first decisions of a schedule. -/
def scheduleListing (limit : Option Nat) (s : Schedule) : String :=
  let shown := match limit with
    | some n => s.toList.take n
    | none => s.toList
  scheduleLine "STEP" "KIND" "VALUE" ++ String.ofList (List.replicate 40 '-') ++ "\n" ++
    String.join (shown.zipIdx.map fun (d, i) =>
      scheduleLine (Text.showNat i) (decisionColumns d).1 (decisionColumns d).2) ++
    (if shown.length < s.size then "... " ++ Text.showNat (s.size - shown.length) ++ " more\n"
      else "")

/-- List the decisions of a saved schedule. -/
def schedule (path : String) (limit : Option Nat) (contents : Contents) : Printed :=
  printed do
    match (← readDump contents).body with
    | .schedule s => return scheduleListing limit s
    | .mintrace _ => .error (.isMintrace path)

/-- Check that a saved run can be read. -/
def validate (contents : Contents) : Printed :=
  printed do
    let dump ← readDump contents
    match dump.body with
    | .schedule s => return "ok: schedule with " ++ Text.showNat s.size ++ " decisions\n"
    | .mintrace _ =>
      let tree ← (EventTree.ofMintrace dump).mapError .tree
      return "ok: event tree with " ++ Text.showNat tree.size ++ " steps\n"

/-- Print a minimization report. -/
def report (format : ReportFormat) (contents : Contents) : Printed :=
  printed do
    let r ← readReport contents
    return match format with
      | .text => r.text
      | .markdown => r.markdown

/-- What a command prints about the contents of its file. -/
def Command.print (contents : Contents) : Command → Printed
  | .info path => CommandLine.info path contents
  | .tree _ format => CommandLine.tree format contents
  | .schedule path limit => CommandLine.schedule path limit contents
  | .validate _ => CommandLine.validate contents
  | .report _ format => CommandLine.report format contents

/-- What the program prints in answer to a request that needs no file, or the command to be run. -/
def answer : Option Request → Printed ⊕ Command
  | none => .inl .misused
  | some .help => .inl { output := helpText }
  | some (.helpOn topic) => .inl { output := topicText topic }
  | some .helpOnHelp => .inl { output := helpTopicText }
  | some .version => .inl { output := versionText }
  | some (.run command) => .inr command

end Interleave.CommandLine
