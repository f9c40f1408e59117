import Interleave.Dump.Basic
import Interleave.EventTree.Basic
import Interleave.Json.Parser
import Interleave.Json.Printer

/-!
# Mintraces

A tree is saved as a dump whose body has one JSON object a step: the step and, for a withheld send,
a mark. The run's result stands in the header. `EventTree.toMintrace` writes the dump and
`EventTree.ofMintrace` reads it back and validates it.
-/

namespace Interleave

/-- Why a dump holds no event tree. Lines of the body are counted from 1. -/
inductive TreeError where
  | invalidStep (line : Nat)
  | malformed (fault : TreeFault)
  | notMintrace
  | dump (error : DumpError)
  deriving DecidableEq

/-- The wording of a tree error; what the JSON reader has to say about a step is left out. -/
def TreeError.message : TreeError → String
  | .invalidStep line => "mintrace line " ++ Text.showNat line
  | .malformed fault => "malformed event tree: " ++ fault.message
  | .notMintrace => "trace is a flat schedule, not a mintrace"
  | .dump error => "trace error: " ++ error.message

namespace EventTree

/-- The line of a step. -/
def mintraceLine (t : EventTree) (s : Step) : String :=
  Json.compact (.record (("step", s.toJson) ::
    if t.isWithheld s.index then [("withheld", .bool true)] else []))

/-- The step on a line and whether it is withheld. -/
def readMintraceLine? (line : String) : Option (Step × Bool) := do
  match (← Json.parse? line).fields [("step", .required), ("withheld", .defaulted)] with
  | some [step, withheld] =>
    return (← Json.present Step.ofJson? step, ← Json.orDefault Json.toBool? false withheld)
  | _ => none

/-- The dump of a tree, with the tree's result and the other settings of the given header. -/
def toMintrace (t : EventTree) (h : Header) : Dump :=
  .ofMintrace
    { h with bugFound := t.bugFound, bugStep := t.bugStep, livenessMonitor := t.livenessMonitor }
    (t.steps.toList.map t.mintraceLine)

/-- The steps on the given lines, with their marks. -/
def readMintraceLines (lines : List String) : Except TreeError (List (Step × Bool)) :=
  (lines.zipIdx 1).mapM fun (line, number) =>
    match readMintraceLine? line with
    | some entry => .ok entry
    | none => .error (.invalidStep number)

/-- The tree that a dump holds. -/
def ofMintrace (d : Dump) : Except TreeError EventTree :=
  match d.body, d.header.isMintrace with
  | .mintrace lines, true => do
    let entries ← readMintraceLines lines
    let withheld := (entries.filter (·.2)).map (·.1.index)
    let t : EventTree := {
      steps := (entries.map (·.1)).toArray
      withheld := insertAllAscending [] withheld
      ascending := Ascending.insertAll withheld .nil
      bugFound := d.header.bugFound
      bugStep := d.header.bugStep
      livenessMonitor := d.header.livenessMonitor }
    t.validate.mapError .malformed
  | _, _ => .error .notMintrace

/-- The tree that a saved text holds. -/
def ofText (text : String) : Except TreeError EventTree := do
  ofMintrace (← (Dump.parse text).mapError .dump)

end EventTree

end Interleave
