import Interleave.Json.Decode

/-!
# Configuration

The settings shared by the scheduler, the strategies and the engine, and their JSON form. Every
field has a default, so any part of them may be left out of a configuration file.
-/

namespace Interleave

/-- Settings of a testing session. A bound of 0 means no bound. -/
structure Configuration where
  /-- Number of iterations the engine runs at most. -/
  iterations : Nat := 1
  /-- Step bound under an unfair strategy. -/
  maxUnfairSteps : Nat := 10000
  /-- Step bound under a fair strategy. -/
  maxFairSteps : Nat := 100000
  /-- Reaching the step bound counts as a bug. -/
  boundIsBug : Bool := false
  /-- Scheduling decisions a monitor may stay hot in a fair run. -/
  livenessThreshold : Nat := 50000
  /-- Recorded in dump headers. -/
  cycleDetection : Bool := false
  /-- Name of the test, recorded in dump headers. -/
  testMethod : Option String := none
  /-- Seed of randomized strategies. -/
  seed : UInt64 := 0
  /-- Stop iterating once a bug is found. -/
  stopAfterFirstBug : Bool := true
  deriving DecidableEq, Inhabited

namespace Configuration

/-- The step bound under a fair or an unfair strategy. -/
def stepBound (c : Configuration) (fair : Bool) : Nat :=
  if fair then c.maxFairSteps else c.maxUnfairSteps

/-- The JSON form of a configuration. -/
def toJson (c : Configuration) : Json :=
  .record [
    ("scheduling_iterations", .natural c.iterations),
    ("max_unfair_scheduling_steps", .natural c.maxUnfairSteps),
    ("max_fair_scheduling_steps", .natural c.maxFairSteps),
    ("consider_depth_bound_hit_as_bug", .bool c.boundIsBug),
    ("liveness_temperature_threshold", .natural c.livenessThreshold),
    ("enable_cycle_detection", .bool c.cycleDetection),
    ("test_method_name", .optional .text c.testMethod),
    ("random_seed", .natural c.seed.toNat),
    ("stop_after_first_bug", .bool c.stopAfterFirstBug)]

/-- The names of the fields, all of which have defaults. -/
def fieldNames : List (String × Json.Presence) :=
  [("scheduling_iterations", .defaulted), ("max_unfair_scheduling_steps", .defaulted),
    ("max_fair_scheduling_steps", .defaulted), ("consider_depth_bound_hit_as_bug", .defaulted),
    ("liveness_temperature_threshold", .defaulted), ("enable_cycle_detection", .defaulted),
    ("test_method_name", .defaulted), ("random_seed", .defaulted),
    ("stop_after_first_bug", .defaulted)]

/-- The given configuration with the fields that a JSON value holds. -/
def overlay? (base : Configuration) (j : Json) : Option Configuration :=
  match j.fields fieldNames with
  | some [iterations, unfair, fair, boundIsBug, threshold, cycles, method, seed, stop] => do
    return {
      iterations := ← Json.orDefault Json.toSize? base.iterations iterations
      maxUnfairSteps := ← Json.orDefault Json.toSize? base.maxUnfairSteps unfair
      maxFairSteps := ← Json.orDefault Json.toSize? base.maxFairSteps fair
      boundIsBug := ← Json.orDefault Json.toBool? base.boundIsBug boundIsBug
      livenessThreshold := ← Json.orDefault Json.toSize? base.livenessThreshold threshold
      cycleDetection := ← Json.orDefault Json.toBool? base.cycleDetection cycles
      testMethod :=
        ← Json.orDefault (fun j => Json.toOption? Json.toText? (some j)) base.testMethod method
      seed := ← Json.orDefault Json.toWord? base.seed seed
      stopAfterFirstBug := ← Json.orDefault Json.toBool? base.stopAfterFirstBug stop }
  | _ => none

/-- The configuration that a JSON value denotes. -/
def ofJson? (j : Json) : Option Configuration :=
  overlay? {} j

end Configuration

end Interleave
