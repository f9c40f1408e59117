import Interleave.Minimization.Report

/-!
# Minimization reports in Markdown

The layout of a report as a document: a title, a summary list, a table of the trials and a table of
the steps. The bug mark of a step wins over its withheld mark.
-/

namespace Interleave.Minimization.Report

/-- A row of a table. -/
def row (cells : List String) : String :=
  "| " ++ String.intercalate " | " cells ++ " |\n"

/-- The title. -/
def titleText (r : Report) : String :=
  match r.testMethod with
  | some test => "# Minimized trace: " ++ test ++ "\n\n"
  | none => "# Minimized trace\n\n"

/-- The sentence below the title. -/
def leadText (r : Report) : String :=
  "Reduced a " ++ Text.showNat r.originalLength ++ "-entry trace to " ++
    Text.showNat r.minimizedLength ++ " steps in " ++ Text.showNat r.iterations ++
    " iterations with \x60" ++ r.strategy ++ "\x60.\n\n"

/-- An item of the summary. -/
def item (label value : String) : String :=
  "- **" ++ label ++ ":** " ++ value ++ "\n"

/-- The summary. -/
def summaryText (r : Report) : String :=
  "## Summary\n\n" ++
    item "Withheld sends" (Text.showNat r.withheldSends.length) ++
    item "Critical transition" r.transitionText ++
    (match r.bugStep with
      | some step => item "Bug step" (Text.showNat step)
      | none => "") ++ "\n"

/-- The numbers of a range; a single number stands alone. -/
def rangeText (r : Range) : String :=
  if r.first = r.last then Text.showNat r.first
  else Text.showNat r.first ++ "-" ++ Text.showNat r.last

/-- The table of the trials, if there were any. -/
def trialsTable (r : Report) : String :=
  if r.trials.isEmpty then ""
  else
    "## Withhold Trials\n\n| Sends | Reproduced |\n|-------|------------|\n" ++
      String.join (r.trials.map fun t =>
        row [rangeText t.range, if t.reproduced then "yes" else "no"]) ++
      "\n"

/-- The note on a step. -/
def note (r : Report) (s : Step) : String :=
  if r.bugStep = some s.index then "bug"
  else if r.withheldSends.contains s.index then "withheld"
  else ""

/-- The table of the steps. -/
def stepsTable (r : Report) : String :=
  "## Steps\n\n| # | Kind | Source | Target | Event | Note |\n" ++
    "|---|------|--------|--------|-------|------|\n" ++
    String.join (r.steps.map fun s =>
      row [Text.showNat s.index, s.kind.text, s.source.text, s.target.text, s.eventName.getD "-",
        r.note s]) ++
    "\n"

/-- The report as a Markdown document. -/
def markdown (r : Report) : String :=
  r.titleText ++ r.leadText ++ r.summaryText ++ r.trialsTable ++ r.stepsTable

end Interleave.Minimization.Report
