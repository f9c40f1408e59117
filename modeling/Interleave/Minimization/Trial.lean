import Interleave.Json.Decode

/-!
# Trials

The droppable sends of a run are numbered from 1 in the order of the run. A candidate withholds the
sends with the numbers of one `Range`, and a `Trial` says whether the bug was reproduced without
them.
-/

namespace Interleave.Minimization

/-- The numbers from `first` to `last`, both included. -/
structure Range where
  first : Nat
  last : Nat
  deriving DecidableEq

namespace Range

/-- Whether a number lies in the range. -/
def contains (r : Range) (n : Nat) : Bool :=
  r.first ≤ n && n ≤ r.last

/-- The two halves of a range of more than one number, the lower one first. -/
def halves (r : Range) : List Range :=
  if r.first < r.last then
    let middle := r.first + (r.last - r.first) / 2
    [⟨r.first, middle⟩, ⟨middle + 1, r.last⟩]
  else []

/-- The JSON form of a range: its two ends. -/
def toJson (r : Range) : Json :=
  .array [.natural r.first, .natural r.last]

/-- The range that a JSON value denotes. -/
def ofJson? : Json → Option Range
  | .array [a, b] => do return ⟨← Json.toSize? a, ← Json.toSize? b⟩
  | _ => none

end Range

/-- A finished trial of a candidate. -/
structure Trial where
  range : Range
  reproduced : Bool
  deriving DecidableEq

namespace Trial

/-- The JSON form of a trial. -/
def toJson (t : Trial) : Json :=
  .record [("range", t.range.toJson), ("reproduced", .bool t.reproduced)]

/-- The trial that a JSON value denotes. -/
def ofJson? (j : Json) : Option Trial :=
  match j.fields [("range", .required), ("reproduced", .required)] with
  | some [range, reproduced] => do
    return ⟨← Json.present Range.ofJson? range, ← Json.present Json.toBool? reproduced⟩
  | _ => none

end Trial

end Interleave.Minimization
