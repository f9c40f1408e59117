import Interleave.Ascending
import Interleave.Scheduler.Basic
import Interleave.Text.Quotient

/-!
# Test reports

Statistics over the runs of a session: counts, extremes of the lengths of fair runs, and the
distinct bug messages. `TestReport.record` accounts for one run and `TestReport.merge` joins two
reports; `TestReport.text` is the report for a reader.
-/

namespace Interleave

/-- Statistics over some runs. -/
structure TestReport where
  /-- Description of the strategy. -/
  strategy : String := ""
  /-- Runs that found a bug. -/
  bugs : Nat := 0
  /-- Distinct bug messages. -/
  messages : List String := []
  ascending : Ascending messages := by exact .nil
  fairRuns : Nat := 0
  unfairRuns : Nat := 0
  /-- Sum of the steps of the fair runs. -/
  fairSteps : Nat := 0
  /-- Steps of the shortest fair run. -/
  minFairSteps : Option Nat := none
  /-- Steps of the longest fair run. -/
  maxFairSteps : Option Nat := none
  /-- Fair runs that hit the fair bound. -/
  fairBoundHits : Nat := 0
  /-- Fair runs that went past the unfair bound. -/
  unfairBoundHitsInFair : Nat := 0
  /-- Unfair runs that hit the unfair bound. -/
  unfairBoundHits : Nat := 0
  deriving DecidableEq

instance : Inhabited TestReport := ⟨{}⟩

/-- The value chosen from two optional ones; a missing one gives way. -/
def joinOptions (choose : Nat → Nat → Nat) : Option Nat → Option Nat → Option Nat
  | some a, some b => some (choose a b)
  | a, b => a.or b

namespace TestReport

/-- Account for one finished run. -/
def record (r : TestReport) (outcome : Outcome) (fair reachedMax : Bool) (c : Configuration) :
    TestReport :=
  let steps := outcome.steps
  let r := if fair then
      { r with
        fairRuns := r.fairRuns + 1
        fairSteps := r.fairSteps + steps
        minFairSteps := joinOptions Nat.min r.minFairSteps (some steps)
        maxFairSteps := joinOptions Nat.max r.maxFairSteps (some steps)
        fairBoundHits := r.fairBoundHits + reachedMax.toNat
        unfairBoundHitsInFair := r.unfairBoundHitsInFair +
          (decide (0 < c.maxUnfairSteps ∧ c.maxUnfairSteps ≤ steps)).toNat }
    else
      { r with
        unfairRuns := r.unfairRuns + 1
        unfairBoundHits := r.unfairBoundHits + reachedMax.toNat }
  match outcome.bug with
  | some bug =>
    { r with
      bugs := r.bugs + 1
      messages := insertAscending bug.message r.messages
      ascending := r.ascending.insert bug.message }
  | none => r

/-- Two reports as one. The first name that is not empty stays. -/
def merge (a b : TestReport) : TestReport where
  strategy := if a.strategy.isEmpty then b.strategy else a.strategy
  bugs := a.bugs + b.bugs
  messages := insertAllAscending a.messages b.messages
  ascending := a.ascending.insertAll b.messages
  fairRuns := a.fairRuns + b.fairRuns
  unfairRuns := a.unfairRuns + b.unfairRuns
  fairSteps := a.fairSteps + b.fairSteps
  minFairSteps := joinOptions Nat.min a.minFairSteps b.minFairSteps
  maxFairSteps := joinOptions Nat.max a.maxFairSteps b.maxFairSteps
  fairBoundHits := a.fairBoundHits + b.fairBoundHits
  unfairBoundHitsInFair := a.unfairBoundHitsInFair + b.unfairBoundHitsInFair
  unfairBoundHits := a.unfairBoundHits + b.unfairBoundHits

/-- The mean number of steps of a fair run with the given number of places, if any fair run took
place. -/
def averageFairSteps (r : TestReport) (places : Nat) : Option String :=
  if r.fairRuns = 0 then none
  else some ((Text.quotient r.fairSteps r.fairRuns).fixed places)

/-- The number of runs. -/
def runs (r : TestReport) : Nat :=
  r.fairRuns + r.unfairRuns

/-- The JSON form of a report. -/
def toJson (r : TestReport) : Json :=
  .record [
    ("strategy", .text r.strategy),
    ("num_of_found_bugs", .natural r.bugs),
    ("bug_reports", .array (r.messages.map .text)),
    ("explored_fair_schedules", .natural r.fairRuns),
    ("explored_unfair_schedules", .natural r.unfairRuns),
    ("total_explored_fair_steps", .natural r.fairSteps),
    ("min_explored_fair_steps", .optional .natural r.minFairSteps),
    ("max_explored_fair_steps", .optional .natural r.maxFairSteps),
    ("max_fair_steps_hit_in_fair_tests", .natural r.fairBoundHits),
    ("max_unfair_steps_hit_in_fair_tests", .natural r.unfairBoundHitsInFair),
    ("max_unfair_steps_hit_in_unfair_tests", .natural r.unfairBoundHits)]

/-- A heavy rule between lines. -/
def heavyRule : String :=
  "═══════════════════════════════════════════════════════════════════════\n"

/-- One line of a report: a label padded to a column, and a value. -/
def entry (label value : String) : String :=
  Text.padRight 24 label ++ value ++ "\n"

/-- The heading of the report. -/
def headingText (r : TestReport) : String :=
  heavyRule ++ "  lockstep Test Report\n" ++ heavyRule ++ "\n" ++
    entry "Strategy:" r.strategy ++
    entry "Explored schedules:" (Text.showNat r.runs) ++
    entry "  fair:" (Text.showNat r.fairRuns) ++
    entry "  unfair:" (Text.showNat r.unfairRuns) ++
    entry "Bugs found:" (Text.showNat r.bugs) ++ "\n"

/-- The part on fair runs, if there were any. -/
def fairText (r : TestReport) : String :=
  match r.averageFairSteps 2 with
  | none => ""
  | some average =>
    "─── Fair Schedules ────────────────────────────────────────────────────\n" ++
      entry "Average steps:" average ++
      entry "Min / max steps:"
        (Text.showNat (r.minFairSteps.getD 0) ++ " / " ++ Text.showNat (r.maxFairSteps.getD 0)) ++
      entry "Hit fair bound:" (Text.showNat r.fairBoundHits) ++
      entry "Hit unfair bound:" (Text.showNat r.unfairBoundHitsInFair) ++ "\n"

/-- The part on unfair runs, if there were any. -/
def unfairText (r : TestReport) : String :=
  if r.unfairRuns = 0 then ""
  else
    "─── Unfair Schedules ──────────────────────────────────────────────────\n" ++
      entry "Hit unfair bound:" (Text.showNat r.unfairBoundHits) ++ "\n"

/-- The part on bugs, if there were any: the numbered messages. -/
def bugsText (r : TestReport) : String :=
  if r.messages.isEmpty then ""
  else
    "─── Bugs ──────────────────────────────────────────────────────────────\n" ++
      String.join ((r.messages.zipIdx 1).map fun (m, i) =>
        "  " ++ Text.showNat i ++ ". " ++ m ++ "\n")

/-- The report for a reader. -/
def text (r : TestReport) : String :=
  r.headingText ++ r.fairText ++ r.unfairText ++ r.bugsText

end TestReport

/-- The report on the run of a scheduler. -/
def Scheduler.report {σ : Type} [Strategy σ] (s : Scheduler σ) : TestReport :=
  { strategy := Strategy.describe s.strategy : TestReport }.record s.outcome
    (Strategy.isFair s.strategy) (Strategy.boundReached s.strategy) s.config

end Interleave
