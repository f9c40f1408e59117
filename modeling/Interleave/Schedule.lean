import Interleave.Json.Basic
import Interleave.Operation
import Interleave.Text.Blank

/-!
# Schedules

A schedule is the log of a run's decisions, in order. Each `Decision` has a one-line text: its kind,
a colon and its value; the identity of a fair choice stands between them and may itself hold colons.
-/

namespace Interleave

/-- One logged decision. -/
inductive Decision where
  | schedule (operation : OperationId)
  | boolean (value : Bool)
  | fairBoolean (fairness : String) (value : Bool)
  | integer (value : UInt32)
  deriving DecidableEq

namespace Decision

/-- The word for a Boolean. -/
def showBool (b : Bool) : String :=
  if b then "true" else "false"

/-- The Boolean that a word denotes. -/
def readBool? (cs : List Char) : Option Bool :=
  if cs = "true".toList then some true
  else if cs = "false".toList then some false
  else none

/-- The text of a decision. -/
def text : Decision → String
  | .schedule id => "sched:" ++ id.text
  | .boolean b => "bool:" ++ showBool b
  | .fairBoolean fairness b => "fair-bool:" ++ fairness ++ ":" ++ showBool b
  | .integer n => "int:" ++ Text.showNat n.toNat

/-- The decision that a text denotes. Numerals may have a plus sign and leading zeros. -/
def ofChars? (cs : List Char) : Option Decision := do
  let (kind, rest) ← Text.splitFirst? ':' cs
  if kind = "sched".toList then
    return .schedule ⟨(← Text.unsigned? UInt64.size rest).toUInt64⟩
  else if kind = "bool".toList then
    return .boolean (← readBool? rest)
  else if kind = "int".toList then
    return .integer (← Text.unsigned? UInt32.size rest).toUInt32
  else if kind = "fair-bool".toList then
    let (fairness, value) ← Text.splitLast? ':' rest
    return .fairBoolean (String.ofList fairness) (← readBool? value)
  else none

/-- The decision that a text denotes. -/
def ofText? (s : String) : Option Decision :=
  ofChars? s.toList

/-- The JSON form of a decision. -/
def toJson : Decision → Json
  | .schedule id => .record [("SchedulingChoice", id.toJson)]
  | .boolean b => .record [("BooleanChoice", .bool b)]
  | .fairBoolean fairness b => .record [("FairBooleanChoice", .array [.text fairness, .bool b])]
  | .integer n => .record [("IntegerChoice", .natural n.toNat)]

/-- Whether a decision names an operation to run. -/
def isSchedule : Decision → Bool
  | .schedule _ => true
  | _ => false

end Decision

/-- The decisions of a run, in order. -/
abbrev Schedule := Array Decision

namespace Schedule

/-- The number of decisions that name an operation. -/
def schedulingChoices (s : Schedule) : Nat :=
  s.toList.countP Decision.isSchedule

/-- The JSON form of a schedule. -/
def toJson (s : Schedule) : Json :=
  .record [("steps", .array (s.toList.map Decision.toJson))]

end Schedule

end Interleave
