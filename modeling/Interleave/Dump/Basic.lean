import Interleave.Dump.Header
import Interleave.Schedule

/-!
# Dumps

A dump is the text that a run is saved as: header lines, then either one decision a line or, in a
mintrace, one step of an event tree a line. `Dump.render` writes a dump and `Dump.parse` reads one.
Lines are trimmed and blank lines are passed over; headers may stand anywhere. A bad header value is
reported before any bad decision, and a mintrace keeps its lines unread.
-/

namespace Interleave

/-- What a dump holds beside its header. -/
inductive Dump.Body where
  | schedule (schedule : Schedule)
  | mintrace (lines : List String)
  deriving DecidableEq

/-- A saved run. -/
structure Dump where
  header : Header
  body : Dump.Body
  deriving DecidableEq

namespace Dump

/-- The dump of a schedule. -/
def ofSchedule (h : Header) (s : Schedule) : Dump :=
  ⟨{ h with isMintrace := false }, .schedule s⟩

/-- The dump of the lines of an event tree. -/
def ofMintrace (h : Header) (lines : List String) : Dump :=
  ⟨{ h with isMintrace := true }, .mintrace lines⟩

/-- The number of entries of the body. -/
def size (d : Dump) : Nat :=
  match d.body with
  | .schedule s => s.size
  | .mintrace lines => lines.length

/-- The lines of the body. -/
def bodyLines (d : Dump) : List String :=
  match d.body with
  | .schedule s => s.toList.map Decision.text
  | .mintrace lines => lines

/-- The text of a dump: every line ends in a line feed. -/
def render (d : Dump) : String :=
  String.join ((d.header.lines ++ d.bodyLines).map (· ++ "\n"))

/-- The lines that are not blank, trimmed and with their numbers, counted from 1. -/
def numberedLines (text : String) : List (Nat × List Char) :=
  ((Text.lines text.toList).zipIdx 1).filterMap fun (raw, line) =>
    let trimmed := Text.trim raw
    if trimmed = [] then none else some (line, trimmed)

/-- The text of a header line without its dashes; nothing for a line of the body. -/
def headerText? (line : List Char) : Option (List Char) :=
  Text.dropStart? ['-', '-'] line

/-- The header that the header lines among the given lines make up, in order. -/
def readHeader (lines : List (Nat × List Char)) : Except DumpError Header :=
  lines.foldlM (fun h (line, text) =>
    match headerText? text with
    | some rest => h.apply line rest
    | none => .ok h) {}

/-- The decision on a numbered line. -/
def readDecision (entry : Nat × List Char) : Except DumpError Decision :=
  match Decision.ofChars? entry.2 with
  | some d => .ok d
  | none => .error (.invalidEntry entry.1 (String.ofList entry.2))

/-- The dump that a text denotes. -/
def parse (text : String) : Except DumpError Dump := do
  let lines := numberedLines text
  let header ← readHeader lines
  let body := lines.filter fun entry => (headerText? entry.2).isNone
  if header.isMintrace then
    return ⟨header, .mintrace (body.map fun entry => String.ofList entry.2)⟩
  return ⟨header, .schedule (← body.mapM readDecision).toArray⟩

end Dump

end Interleave
