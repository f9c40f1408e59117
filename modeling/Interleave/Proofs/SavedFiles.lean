import Mathlib
import Interleave.Configuration
import Interleave.Minimization.Report
import Interleave.Proofs.EventTree.Decoding

/-!
# Saved reports and configurations

Reports and configurations are saved as indented JSON. What was saved is loaded unchanged, and a
configuration may also be loaded from an object with a part of its fields (`Configuration.Part`), in
any order and with other fields among them: settings that are not given have their defaults. Counts
have to fit in machine words (`InRange`).
-/

namespace Interleave

/-! ### Configurations -/

namespace Configuration

/-- The counts of a configuration fit in machine words. -/
structure InRange (c : Configuration) : Prop where
  iterations : c.iterations < UInt64.size
  maxUnfairSteps : c.maxUnfairSteps < UInt64.size
  maxFairSteps : c.maxFairSteps < UInt64.size
  livenessThreshold : c.livenessThreshold < UInt64.size

/-- Some of the settings of a configuration. -/
structure Part where
  iterations : Option Nat := none
  maxUnfairSteps : Option Nat := none
  maxFairSteps : Option Nat := none
  boundIsBug : Option Bool := none
  livenessThreshold : Option Nat := none
  cycleDetection : Option Bool := none
  /-- The name of the test may be given as absent. -/
  testMethod : Option (Option String) := none
  seed : Option UInt64 := none
  stopAfterFirstBug : Option Bool := none

namespace Part

/-- The counts that are given fit in machine words. -/
structure InRange (p : Part) : Prop where
  iterations : ∀ n ∈ p.iterations, n < UInt64.size
  maxUnfairSteps : ∀ n ∈ p.maxUnfairSteps, n < UInt64.size
  maxFairSteps : ∀ n ∈ p.maxFairSteps, n < UInt64.size
  livenessThreshold : ∀ n ∈ p.livenessThreshold, n < UInt64.size

/-- The fields of an object that gives these settings and no others. -/
def fields (p : Part) : List (Option String × Json) :=
  (Json.optionalField "scheduling_iterations" .natural p.iterations ++
    Json.optionalField "max_unfair_scheduling_steps" .natural p.maxUnfairSteps ++
    Json.optionalField "max_fair_scheduling_steps" .natural p.maxFairSteps ++
    Json.optionalField "consider_depth_bound_hit_as_bug" .bool p.boundIsBug ++
    Json.optionalField "liveness_temperature_threshold" .natural p.livenessThreshold ++
    Json.optionalField "enable_cycle_detection" .bool p.cycleDetection ++
    Json.optionalField "test_method_name" (.optional .text) p.testMethod ++
    Json.optionalField "random_seed" (fun w => .natural w.toNat) p.seed ++
    Json.optionalField "stop_after_first_bug" .bool p.stopAfterFirstBug).map
      fun (name, value) => (some name, value)

/-- The given settings, and those of `base` for all others. -/
def withDefaults (p : Part) (base : Configuration) : Configuration where
  iterations := p.iterations.getD base.iterations
  maxUnfairSteps := p.maxUnfairSteps.getD base.maxUnfairSteps
  maxFairSteps := p.maxFairSteps.getD base.maxFairSteps
  boundIsBug := p.boundIsBug.getD base.boundIsBug
  livenessThreshold := p.livenessThreshold.getD base.livenessThreshold
  cycleDetection := p.cycleDetection.getD base.cycleDetection
  testMethod := p.testMethod.getD base.testMethod
  seed := p.seed.getD base.seed
  stopAfterFirstBug := p.stopAfterFirstBug.getD base.stopAfterFirstBug

/-- The values of the fields, in the order of their names. -/
def values (p : Part) : List (Option Json) :=
  [p.iterations.map .natural, p.maxUnfairSteps.map .natural, p.maxFairSteps.map .natural,
    p.boundIsBug.map .bool, p.livenessThreshold.map .natural, p.cycleDetection.map .bool,
    p.testMethod.map (.optional .text), p.seed.map fun w => .natural w.toNat,
    p.stopAfterFirstBug.map .bool]

theorem object_fields (p : Part) :
    Json.object p.fields = .record (Json.written fieldNames p.values) := by
  have hfield : ∀ {α : Type} (name : String) (encode : α → Json) (value : Option α),
      Json.optionalField name id (value.map encode) = Json.optionalField name encode value := by
    intro α name encode value
    cases value <;> rfl
  simp only [Json.record, fieldNames, values, Json.written, hfield, fields, List.append_assoc,
    List.append_nil]

/-- An object that gives some settings, in any order and with unknown fields among them, changes
these settings and no others. -/
theorem InRange.overlay?_object {p : Part} (h : p.InRange) {others fs : List (Option String × Json)}
    (hothers : ∀ f ∈ others, Json.Unknown fieldNames f)
    (hfs : fs.Perm (p.fields ++ others)) (base : Configuration) :
    overlay? base (.object fs) = some (p.withDefaults base) := by
  have hfits : Json.Fits fieldNames p.values := by simp [Json.Fits, fieldNames, values]
  -- to the reader the fields stand in the order of their names, and no others among them
  have hfields : (Json.object fs).fields fieldNames = some p.values := by
    rw [Json.fields_perm hfs, Json.fields_append_unknown hothers, object_fields]
    exact Json.fields_record hfits (by decide)
  have hsize : ∀ {value : Option Nat} (default : Nat), (∀ n ∈ value, n < UInt64.size) →
      Json.orDefault Json.toSize? default (value.map .natural) = some (value.getD default) :=
    fun default hvalue =>
      Json.orDefault_map (fun n hn => Json.toSize?_natural (hvalue n hn)) default
  have hbool : ∀ (value : Option Bool) (default : Bool),
      Json.orDefault Json.toBool? default (value.map .bool) = some (value.getD default) :=
    fun value default => by cases value <;> rfl
  have hmethod : Json.orDefault (fun j => Json.toOption? Json.toText? (some j)) base.testMethod
      (p.testMethod.map (.optional .text)) = some (p.testMethod.getD base.testMethod) :=
    Json.orDefault_map (fun name _ => by cases name <;> rfl) base.testMethod
  have hseed : Json.orDefault Json.toWord? base.seed (p.seed.map fun w => .natural w.toNat) =
      some (p.seed.getD base.seed) :=
    Json.orDefault_map (fun w _ => Json.toWord?_natural w) base.seed
  rw [overlay?, hfields]
  simp only [values, hsize _ h.iterations, hsize _ h.maxUnfairSteps, hsize _ h.maxFairSteps,
    hsize _ h.livenessThreshold, hbool, hmethod, hseed, Option.bind_eq_bind, Option.bind_some]
  rfl

end Part

/-- All settings of a configuration. -/
def whole (c : Configuration) : Part where
  iterations := some c.iterations
  maxUnfairSteps := some c.maxUnfairSteps
  maxFairSteps := some c.maxFairSteps
  boundIsBug := some c.boundIsBug
  livenessThreshold := some c.livenessThreshold
  cycleDetection := some c.cycleDetection
  testMethod := some c.testMethod
  seed := some c.seed
  stopAfterFirstBug := some c.stopAfterFirstBug

theorem InRange.whole {c : Configuration} (h : c.InRange) : c.whole.InRange := by
  refine ⟨fun n hn => ?_, fun n hn => ?_, fun n hn => ?_, fun n hn => ?_⟩
  · obtain rfl := Option.some.inj hn
    exact h.iterations
  · obtain rfl := Option.some.inj hn
    exact h.maxUnfairSteps
  · obtain rfl := Option.some.inj hn
    exact h.maxFairSteps
  · obtain rfl := Option.some.inj hn
    exact h.livenessThreshold

/-- A configuration is read from an object with all its fields as it was written. -/
theorem ofJson?_toJson {c : Configuration} (h : c.InRange) : ofJson? c.toJson = some c := by
  have hothers : ∀ f ∈ [], Json.Unknown fieldNames f := by
    intro f hf
    cases hf
  have hfields : c.whole.fields.Perm (c.whole.fields ++ []) := by rw [List.append_nil]
  exact h.whole.overlay?_object hothers hfields {}

theorem plain_toJson (c : Configuration) : c.toJson.Plain := by
  refine .record fun f hf => ?_
  simp only [List.mem_cons, List.not_mem_nil, or_false] at hf
  rcases hf with rfl | rfl | rfl | rfl | rfl | rfl | rfl | rfl | rfl
  · exact .natural _
  · exact .natural _
  · exact .natural _
  · exact .bool _
  · exact .natural _
  · exact .bool _
  · exact .optional .text _
  · exact .natural _
  · exact .bool _

end Configuration

/-! ### Reports -/

namespace Minimization

/-- The ends of a range fit in machine words. -/
structure Range.InRange (r : Range) : Prop where
  first : r.first < UInt64.size
  last : r.last < UInt64.size

theorem Range.ofJson?_toJson {r : Range} (h : r.InRange) : ofJson? r.toJson = some r := by
  rw [toJson, ofJson?, Json.toSize?_natural h.first, Json.toSize?_natural h.last]
  rfl

namespace Trial

theorem ofJson?_toJson {t : Trial} (h : t.range.InRange) : ofJson? t.toJson = some t := by
  have hfits : Json.Fits [("range", .required), ("reproduced", .required)]
      [some t.range.toJson, some (.bool t.reproduced)] := by
    simp [Json.Fits]
  have hfields : t.toJson.fields [("range", .required), ("reproduced", .required)] =
      some [some t.range.toJson, some (.bool t.reproduced)] :=
    Json.fields_record hfits (by decide)
  rw [ofJson?, hfields]
  simp only [Json.present, Range.ofJson?_toJson h, Option.bind_eq_bind, Option.bind_some]
  rfl

theorem plain_toJson (t : Trial) : t.toJson.Plain := by
  refine .record fun f hf => ?_
  simp only [List.mem_cons, List.not_mem_nil, or_false] at hf
  rcases hf with rfl | rfl
  · refine .array _ fun j hj => ?_
    simp only [List.mem_cons, List.not_mem_nil, or_false] at hj
    rcases hj with rfl | rfl
    · exact .natural _
    · exact .natural _
  · exact .bool _

end Trial

namespace Report

/-- The counts and indices of a report fit in machine words. -/
structure InRange (r : Report) : Prop where
  originalLength : r.originalLength < UInt64.size
  minimizedLength : r.minimizedLength < UInt64.size
  withheldSends : ∀ n ∈ r.withheldSends, n < UInt64.size
  transition : ∀ n ∈ r.transition, n < UInt64.size
  bugStep : ∀ n ∈ r.bugStep, n < UInt64.size
  iterations : r.iterations < UInt64.size
  trials : ∀ t ∈ r.trials, t.range.InRange
  steps : ∀ s ∈ r.steps, s.InRange

/-- The fields of a report, in order. -/
def spec : List (String × Json.Presence) :=
  [("strategy", .required), ("test_method", .defaulted), ("original_length", .required),
    ("minimized_length", .required), ("withheld_sends", .required),
    ("critical_transition", .nullable), ("bug_step", .nullable), ("iterations", .required),
    ("edit_trials", .required), ("steps", .required)]

/-- The values of the fields of a report. -/
def values (r : Report) : List (Option Json) :=
  [some (.text r.strategy), r.testMethod.map .text, some (.natural r.originalLength),
    some (.natural r.minimizedLength), some (.array (r.withheldSends.map .natural)),
    some (.optional .natural r.transition), some (.optional .natural r.bugStep),
    some (.natural r.iterations), some (.array (r.trials.map Trial.toJson)),
    some (.array (r.steps.map Step.toJson))]

theorem toJson_eq (r : Report) : r.toJson = .record (Json.written spec r.values) := by
  obtain ⟨strategy, method, original, minimized, withheld, transition, bugStep, iterations, trials,
    steps⟩ := r
  cases method <;> rfl

theorem ofJson?_toJson {r : Report} (h : r.InRange) : ofJson? r.toJson = some r := by
  have hfits : Json.Fits spec r.values := by simp [Json.Fits, spec, values]
  have hfields : r.toJson.fields spec = some r.values := by
    rw [toJson_eq, Json.fields_record hfits (by decide)]
  have hmethod : Json.toOption? Json.toText? (r.testMethod.map .text) = some r.testMethod :=
    Json.toOption?_map fun _ _ => ⟨Json.noConfusion, rfl⟩
  have hindex : ∀ {value : Option Nat}, (∀ n ∈ value, n < UInt64.size) →
      Json.toOption? Json.toSize? (some (.optional .natural value)) = some value := by
    intro value hvalue
    cases value with
    | none => rfl
    | some n => exact congrArg (Option.map some) (Json.toSize?_natural (hvalue n rfl))
  have hwithheld : Json.toList? Json.toSize? (.array (r.withheldSends.map .natural)) =
      some r.withheldSends :=
    Json.toList?_map fun n hn => Json.toSize?_natural (h.withheldSends n hn)
  have htrials : Json.toList? Trial.ofJson? (.array (r.trials.map Trial.toJson)) = some r.trials :=
    Json.toList?_map fun t ht => Trial.ofJson?_toJson (h.trials t ht)
  have hsteps : Json.toList? Step.ofJson? (.array (r.steps.map Step.toJson)) = some r.steps :=
    Json.toList?_map fun s hs => Step.ofJson?_toJson (h.steps s hs)
  rw [spec] at hfields
  rw [ofJson?, hfields]
  simp only [values, Json.present, Json.toText?, hmethod, Json.toSize?_natural h.originalLength,
    Json.toSize?_natural h.minimizedLength, hwithheld, hindex h.transition, hindex h.bugStep,
    Json.toSize?_natural h.iterations, htrials, hsteps, Option.bind_eq_bind, Option.bind_some]
  rfl

theorem plain_toJson (r : Report) : r.toJson.Plain := by
  rw [toJson_eq]
  refine .written fun value hvalue j hj => ?_
  simp only [values, List.mem_cons, List.not_mem_nil, or_false] at hvalue
  rcases hvalue with rfl | rfl | rfl | rfl | rfl | rfl | rfl | rfl | rfl | rfl
  · cases hj
    exact .text _
  · obtain ⟨_, -, rfl⟩ := Option.map_eq_some_iff.mp hj
    exact .text _
  · cases hj
    exact .natural _
  · cases hj
    exact .natural _
  · cases hj
    exact .array_map fun _ _ => .natural _
  · cases hj
    exact .optional .natural _
  · cases hj
    exact .optional .natural _
  · cases hj
    exact .natural _
  · cases hj
    exact .array_map fun t _ => t.plain_toJson
  · cases hj
    exact .array_map fun s _ => s.plain_toJson

end Report

end Minimization

/-! ### Files -/

/-- Saved reports and configurations are loaded as they were saved. A configuration is also loaded
from every text of an object that holds some of its fields, in any order and with unknown fields
among them: it has the settings that are given, and the defaults of all others. -/
theorem saved_files_load_back :
    (∀ r : Minimization.Report, r.InRange →
      (Json.parse? (Json.pretty r.toJson)).bind Minimization.Report.ofJson? = some r) ∧
    (∀ c : Configuration, c.InRange →
      (Json.parse? (Json.pretty c.toJson)).bind Configuration.ofJson? = some c) ∧
    ∀ (p : Configuration.Part) (others fields : List (Option String × Json)) (text : String),
      p.InRange → (∀ f ∈ others, Json.Unknown Configuration.fieldNames f) →
      fields.Perm (p.fields ++ others) →
      Json.parse? text = some (.object fields) →
      (Json.parse? text).bind Configuration.ofJson? = some (p.withDefaults {}) := by
  refine ⟨fun r hr => ?_, fun c hc => ?_, fun p others fields text hp hothers hfields htext => ?_⟩
  · rw [r.plain_toJson.parse?_pretty, Option.bind_some]
    exact Minimization.Report.ofJson?_toJson hr
  · rw [c.plain_toJson.parse?_pretty, Option.bind_some]
    exact Configuration.ofJson?_toJson hc
  · rw [htext, Option.bind_some]
    exact hp.overlay?_object hothers hfields {}

/-- A report on a withheld send, with quotes, a backslash and control characters in its names. -/
def quotedReport : Minimization.Report where
  strategy := "Minimize(\"\\\x01\")"
  testMethod := none
  originalLength := 18446744073709551615
  minimizedLength := 1
  withheldSends := [0]
  transition := some 0
  bugStep := none
  iterations := 2
  trials := [⟨⟨1, 1⟩, true⟩]
  steps := [{
    index := 0
    kind := .integer 4
    source := .harness
    target := ⟨18446744073709551615⟩
    event := some { name := "\n\t", message := none, payload := some 7 }
    directChild := none
    createdChild := some 3
    signature := ⟨some "\"", 1, 2, ⟨5⟩, .boolean true⟩ }]

/-- Two settings in reverse order, an unknown field before them and one of the same name behind. -/
def unorderedSettings : String :=
  "\x7b \"a\" : \x7b\"random_seed\": [1.5e3]\x7d, \"random_seed\" :7 ,\n" ++
    "\"test_method_name\":\"\\u0042\\n\",\t\"a\":\"\\ud800\"\x7d"

/-- These unknown fields, the first of which holds a field of a known name. -/
def unknownSettings : List (Option String × Json) :=
  [(some "a", .object [(some "random_seed", .array [.literal "1.5e3"])]), (some "a", .unpaired)]

theorem saved_files_load_back_of_quotedReport :
    (Json.parse? (Json.pretty quotedReport.toJson)).bind Minimization.Report.ofJson? =
      some quotedReport ∧
    (Json.parse? (Json.pretty ({ testMethod := some "\"" } : Configuration).toJson)).bind
      Configuration.ofJson? = some { testMethod := some "\"" } ∧
    (Json.parse? unorderedSettings).bind Configuration.ofJson? =
      some { seed := 7, testMethod := some "B\n" } := by
  have hreport : quotedReport.InRange := by
    refine ⟨by decide, by decide, by decide, by decide, by decide, by decide, ?_, ?_⟩
    · intro t ht
      obtain rfl := List.mem_singleton.mp ht
      exact ⟨by decide, by decide⟩
    · intro s hs
      obtain rfl := List.mem_singleton.mp hs
      exact ⟨by decide, by decide, by decide, by decide, by decide⟩
  have hpart : Configuration.Part.InRange { seed := some 7, testMethod := some (some "B\n") } :=
    ⟨by decide, by decide, by decide, by decide⟩
  have hothers : ∀ f ∈ unknownSettings, Json.Unknown Configuration.fieldNames f := by
    intro f hf
    simp only [unknownSettings, List.mem_cons, List.not_mem_nil, or_false] at hf
    rcases hf with rfl | rfl
    · exact ⟨"a", rfl, by decide⟩
    · exact ⟨"a", rfl, by decide⟩
  have htext : Json.parse? unorderedSettings = some (.object [
      (some "a", .object [(some "random_seed", .array [.literal "1.5e3"])]),
      (some "random_seed", .natural 7), (some "test_method_name", .text "B\n"),
      (some "a", .unpaired)]) := by
    cbv
  refine ⟨saved_files_load_back.1 _ hreport, saved_files_load_back.2.1 _ ⟨?_, ?_, ?_, ?_⟩,
    saved_files_load_back.2.2 _ unknownSettings _ _ hpart hothers ?_ htext⟩
  · decide
  · decide
  · decide
  · decide
  · exact (List.reverse_perm [(some "test_method_name", Json.text "B\n"),
      (some "random_seed", .natural 7),
      (some "a", .object [(some "random_seed", .array [.literal "1.5e3"])])]).append_right
        [(some "a", .unpaired)]

end Interleave
