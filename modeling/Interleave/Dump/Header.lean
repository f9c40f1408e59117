import Interleave.Configuration
import Interleave.Text.Blank
import Interleave.Text.Numeral

/-!
# Dump headers

The settings and results that stand in the header lines of a dump. A header line is two dashes, a
key and, for some keys, a colon and a value. `Header.lines` writes them in a fixed order and
`Header.apply` reads one of them.
-/

namespace Interleave

/-- What the header lines of a dump say. -/
structure Header where
  fairScheduling : Bool := false
  cycleDetection : Bool := false
  livenessThreshold : Option Nat := none
  testMethod : Option String := none
  isMintrace : Bool := false
  bugFound : Bool := false
  bugStep : Option Nat := none
  /-- The monitor that a liveness bug left hot. -/
  livenessMonitor : Option String := none
  deriving DecidableEq, Inhabited

/-- Why a dump cannot be read. Lines are counted from 1. -/
inductive DumpError where
  | invalidEntry (line : Nat) (text : String)
  | invalidHeader (line : Nat) (key value : String)
  deriving DecidableEq

/-- The wording of a dump error. -/
def DumpError.message : DumpError → String
  | .invalidEntry line text =>
    "line " ++ Text.showNat line ++ ": invalid decision entry '" ++ text ++ "'"
  | .invalidHeader line key value =>
    "line " ++ Text.showNat line ++ ": invalid value for header '" ++ key ++ "': '" ++ value ++ "'"

namespace Header

/-- The header of a run under the given configuration. -/
def ofConfiguration (c : Configuration) (fair : Bool) : Header :=
  { fairScheduling := fair
    cycleDetection := c.cycleDetection
    livenessThreshold := some c.livenessThreshold
    testMethod := c.testMethod }

/-- The configuration with the settings that the header records. -/
def applyTo (h : Header) (c : Configuration) : Configuration :=
  { c with
    cycleDetection := h.cycleDetection
    livenessThreshold := h.livenessThreshold.getD c.livenessThreshold
    testMethod := h.testMethod.or c.testMethod }

/-- The JSON form of a header. -/
def toJson (h : Header) : Json :=
  .record [
    ("fair_scheduling", .bool h.fairScheduling),
    ("cycle_detection", .bool h.cycleDetection),
    ("liveness_temperature_threshold", .optional .natural h.livenessThreshold),
    ("test_method", .optional .text h.testMethod),
    ("is_mintrace", .bool h.isMintrace),
    ("bug_found", .bool h.bugFound),
    ("bug_step", .optional .natural h.bugStep),
    ("liveness_monitor", .optional .text h.livenessMonitor)]

/-- The names of the fields, all of which have defaults. -/
def fieldNames : List (String × Json.Presence) :=
  [("fair_scheduling", .defaulted), ("cycle_detection", .defaulted),
    ("liveness_temperature_threshold", .defaulted), ("test_method", .defaulted),
    ("is_mintrace", .defaulted), ("bug_found", .defaulted), ("bug_step", .defaulted),
    ("liveness_monitor", .defaulted)]

/-- The header that a JSON value denotes. -/
def ofJson? (j : Json) : Option Header :=
  match j.fields fieldNames with
  | some [fair, cycles, threshold, method, mintrace, found, step, monitor] => do
    return {
      fairScheduling := ← Json.orDefault Json.toBool? false fair
      cycleDetection := ← Json.orDefault Json.toBool? false cycles
      livenessThreshold := ← Json.toOption? Json.toSize? threshold
      testMethod := ← Json.toOption? Json.toText? method
      isMintrace := ← Json.orDefault Json.toBool? false mintrace
      bugFound := ← Json.orDefault Json.toBool? false found
      bugStep := ← Json.toOption? Json.toSize? step
      livenessMonitor := ← Json.toOption? Json.toText? monitor }
  | _ => none

/-- A header line of the given key without a value, if the flag is set. -/
def flagLine (key : String) (flag : Bool) : List String :=
  if flag then ["--" ++ key] else []

/-- A header line of the given key and value, if there is a value. -/
def valueLine (key : String) (value : Option String) : List String :=
  (value.map fun v => "--" ++ key ++ ":" ++ v).toList

/-- The header lines, in their fixed order. -/
def lines (h : Header) : List String :=
  flagLine "fair-scheduling" h.fairScheduling ++
  flagLine "cycle-detection" h.cycleDetection ++
  valueLine "liveness-temperature-threshold" (h.livenessThreshold.map Text.showNat) ++
  valueLine "test-method" h.testMethod ++
  flagLine "is-mintrace" h.isMintrace ++
  flagLine "bug-found" h.bugFound ++
  valueLine "bug-step" (h.bugStep.map Text.showNat) ++
  valueLine "liveness-monitor" h.livenessMonitor

/-- The key and the value of a header line, without its dashes. -/
def keyValue (text : List Char) : String × Option (List Char) :=
  match Text.splitFirst? ':' text with
  | some (key, value) => (String.ofList key, some value)
  | none => (String.ofList text, none)

/-- The number in the value of a header line. -/
def number? (line : Nat) (key : String) (value : List Char) : Except DumpError Nat :=
  match Text.unsigned? UInt64.size value with
  | some n => .ok n
  | none => .error (.invalidHeader line key (String.ofList value))

/-- The header after one more header line, given without its dashes. A line of an unknown key, or
with a value where none belongs or without one where one belongs, changes nothing. -/
def apply (h : Header) (line : Nat) (text : List Char) : Except DumpError Header :=
  match keyValue text with
  | ("fair-scheduling", none) => .ok { h with fairScheduling := true }
  | ("cycle-detection", none) => .ok { h with cycleDetection := true }
  | ("is-mintrace", none) => .ok { h with isMintrace := true }
  | ("bug-found", none) => .ok { h with bugFound := true }
  | ("liveness-temperature-threshold", some v) => do
    return { h with livenessThreshold := some (← number? line "liveness-temperature-threshold" v) }
  | ("bug-step", some v) => do
    return { h with bugStep := some (← number? line "bug-step" v) }
  | ("test-method", some v) => .ok { h with testMethod := some (String.ofList v) }
  | ("liveness-monitor", some v) => .ok { h with livenessMonitor := some (String.ofList v) }
  | _ => .ok h

end Header

end Interleave
