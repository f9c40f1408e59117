import Interleave.Json.Decode
import Interleave.Ascending

/-!
# Settings of a minimization

What may be withheld, how candidates are laid out, how often a candidate has to reproduce the bug,
and whether the critical transition is searched for afterwards.
-/

namespace Interleave.Minimization

/-- How the first candidates are laid out. -/
inductive Layout where
  /-- One candidate for every droppable send, in order. -/
  | linear
  /-- All droppable sends at once, split on failure. -/
  | bisect
  deriving DecidableEq

namespace Layout

/-- The name of a layout. -/
def name : Layout → String
  | .linear => "linear"
  | .bisect => "bisect"

/-- The layout of the given name. -/
def ofName? : String → Option Layout
  | "linear" => some .linear
  | "bisect" => some .bisect
  | _ => none

/-- The layout that a JSON value denotes. -/
def ofJson? : Json → Option Layout
  | .text s => ofName? s
  | .object [(some s, .null)] => ofName? s
  | _ => none

end Layout

/-- Settings of a minimization. -/
structure Settings where
  /-- Names of the events whose sends may be withheld, ascending. -/
  droppable : List String := []
  layout : Layout := .linear
  /-- Search for the critical transition after the edits. -/
  findsTransition : Bool := true
  /-- Reproductions in a row that a candidate needs; 0 counts as 1. -/
  replays : Nat := 1
  deriving DecidableEq, Inhabited

namespace Settings

/-- The settings under which the given events may be withheld too. -/
def withDroppable (s : Settings) (names : List String) : Settings :=
  { s with droppable := insertAllAscending s.droppable names }

/-- Whether sends of the given event may be withheld. -/
def isDroppable (s : Settings) (name : String) : Bool :=
  s.droppable.contains name

/-- The JSON form of the settings. -/
def toJson (s : Settings) : Json :=
  .record [
    ("droppable_events", .array (s.droppable.map .text)),
    ("withhold_search", .text s.layout.name),
    ("find_critical_transition", .bool s.findsTransition),
    ("replays_per_candidate", .natural s.replays)]

/-- The given settings with the fields that a JSON value holds. -/
def overlay? (base : Settings) (j : Json) : Option Settings :=
  match j.fields [("droppable_events", .defaulted), ("withhold_search", .defaulted),
      ("find_critical_transition", .defaulted), ("replays_per_candidate", .defaulted)] with
  | some [droppable, layout, transition, replays] => do
    let names := (Json.toList? Json.toText? · |>.map (insertAllAscending []))
    return {
      droppable := ← Json.orDefault names base.droppable droppable
      layout := ← Json.orDefault Layout.ofJson? base.layout layout
      findsTransition := ← Json.orDefault Json.toBool? base.findsTransition transition
      replays := ← Json.orDefault Json.toSize? base.replays replays }
  | _ => none

end Settings

end Interleave.Minimization
