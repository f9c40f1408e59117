import Interleave.Proofs.Engine.Reports

/-!
# Merging is recording together

To record a run is to merge the report of that run alone (`TestReport.record_eq_merge`). Merging is
associative, has the empty report as its identity and is commutative but for the name, so that two
reports merged are one report of all their runs (`TestReport.merge_recordAll`). The messages of a
report are a set, held as a list that ascends (`TestReport.ascending`), and so settled by its
members.
-/

namespace Interleave

/-! ## Optional extremes -/

section JoinOptions

variable (choose : Nat → Nat → Nat)

@[simp]
theorem joinOptions_none_left (b : Option Nat) : joinOptions choose none b = b := by
  cases b <;> rfl

@[simp]
theorem joinOptions_none_right (a : Option Nat) : joinOptions choose a none = a := by
  cases a <;> rfl

variable {choose}

theorem joinOptions_assoc (h : ∀ a b c, choose (choose a b) c = choose a (choose b c))
    (a b c : Option Nat) :
    joinOptions choose (joinOptions choose a b) c =
      joinOptions choose a (joinOptions choose b c) := by
  cases a with
  | none => simp
  | some a =>
      cases b with
      | none => simp
      | some b =>
          cases c with
          | none => simp
          | some c => exact congrArg some (h a b c)

theorem joinOptions_comm (h : ∀ a b, choose a b = choose b a) (a b : Option Nat) :
    joinOptions choose a b = joinOptions choose b a := by
  cases a with
  | none => simp
  | some a =>
      cases b with
      | none => simp
      | some b => exact congrArg some (h a b)

end JoinOptions

namespace TestReport

attribute [ext] TestReport

/-- The report on no run under the given name. -/
def ofName (name : String) : TestReport :=
  { strategy := name }

/-- One run as a report accounts for it. -/
structure Run where
  outcome : Outcome
  fair : Bool
  reachedMax : Bool
  config : Configuration

/-- The report with one more run. -/
def recordRun (r : TestReport) (run : Run) : TestReport :=
  r.record run.outcome run.fair run.reachedMax run.config

/-- The report with some more runs, in order. -/
def recordAll (r : TestReport) (runs : List Run) : TestReport :=
  runs.foldl recordRun r

theorem recordAll_append (r : TestReport) (xs ys : List Run) :
    r.recordAll (xs ++ ys) = (r.recordAll xs).recordAll ys :=
  List.foldl_append

theorem strategy_recordAll (r : TestReport) (runs : List Run) :
    (r.recordAll runs).strategy = r.strategy := by
  induction runs generalizing r with
  | nil => rfl
  | cons run runs ih => exact (ih (r.recordRun run)).trans (r.strategy_record _ _ _ _)

/-! ### The laws of merging -/

variable {a b c : TestReport}

theorem messages_merge (a b : TestReport) :
    (a.merge b).messages = insertAllAscending a.messages b.messages := rfl

theorem strategy_merge (a b : TestReport) :
    (a.merge b).strategy = firstName [a.strategy, b.strategy] := by
  rw [firstName_cons, firstName_singleton]
  rfl

/-- The first name of some texts may stand for them behind another one. -/
theorem firstName_cons_firstName (name : String) (names : List String) :
    firstName [name, firstName names] = firstName (name :: names) := by
  rw [firstName_cons, firstName_singleton, firstName_cons]

theorem firstName_empty (name : String) : firstName [name, ""] = name :=
  (firstName_cons_firstName name []).trans (firstName_singleton name)

theorem merge_assoc (a b c : TestReport) : (a.merge b).merge c = a.merge (b.merge c) := by
  have hname : ((a.merge b).merge c).strategy = (a.merge (b.merge c)).strategy := by
    simp only [strategy_merge]
    rw [firstName_firstName, firstName_cons_firstName]
  -- both lists ascend, so that only their members matter
  have hmessages : ((a.merge b).merge c).messages = (a.merge (b.merge c)).messages := by
    apply ((a.merge b).merge c).ascending.eq_of_mem_iff (a.merge (b.merge c)).ascending
    intro x
    simp only [messages_merge, mem_insertAllAscending, or_assoc]
  exact TestReport.ext hname (Nat.add_assoc ..) hmessages (Nat.add_assoc ..) (Nat.add_assoc ..)
    (Nat.add_assoc ..) (joinOptions_assoc Nat.min_assoc ..) (joinOptions_assoc Nat.max_assoc ..)
    (Nat.add_assoc ..) (Nat.add_assoc ..) (Nat.add_assoc ..)

/-- But for the name it does not matter which of two reports is merged into the other. -/
theorem merge_comm_named (a b : TestReport) :
    (a.merge b).named "" = (b.merge a).named "" := by
  have hmessages : (a.merge b).messages = (b.merge a).messages := by
    apply (a.merge b).ascending.eq_of_mem_iff (b.merge a).ascending
    intro x
    simp only [messages_merge, mem_insertAllAscending, or_comm]
  exact TestReport.ext rfl (Nat.add_comm ..) hmessages (Nat.add_comm ..) (Nat.add_comm ..)
    (Nat.add_comm ..) (joinOptions_comm Nat.min_comm ..) (joinOptions_comm Nat.max_comm ..)
    (Nat.add_comm ..) (Nat.add_comm ..) (Nat.add_comm ..)

/-- The name of two merged reports depends on their order only where both have one. -/
theorem strategy_merge_comm_iff :
    (a.merge b).strategy = (b.merge a).strategy ↔
      a.strategy = "" ∨ b.strategy = "" ∨ a.strategy = b.strategy := by
  simp only [strategy_merge, firstName_cons, String.isEmpty_iff]
  by_cases ha : a.strategy = ""
  · by_cases hb : b.strategy = "" <;> simp [ha, hb]
  · by_cases hb : b.strategy = "" <;> simp [ha, hb]

theorem merge_empty (a : TestReport) : a.merge {} = a := by
  have hname : (a.merge {}).strategy = a.strategy :=
    (strategy_merge a {}).trans (firstName_empty a.strategy)
  exact TestReport.ext hname rfl rfl rfl rfl rfl (joinOptions_none_right Nat.min _)
    (joinOptions_none_right Nat.max _) rfl rfl rfl

/-- A report on no run adds nothing to one of its name. -/
theorem merge_ofName {name : String} (h : a.strategy = name) : a.merge (ofName name) = a := by
  have hname : (a.merge (ofName name)).strategy = a.strategy := by
    show (if a.strategy.isEmpty then name else a.strategy) = a.strategy
    rw [h, ite_self]
  exact TestReport.ext hname rfl rfl rfl rfl rfl (joinOptions_none_right Nat.min _)
    (joinOptions_none_right Nat.max _) rfl rfl rfl

theorem empty_merge (a : TestReport) : merge {} a = a := by
  have hmessages : (merge {} a).messages = a.messages := by
    apply (merge {} a).ascending.eq_of_mem_iff a.ascending
    intro x
    simp [messages_merge, mem_insertAllAscending]
  exact TestReport.ext rfl (Nat.zero_add _) hmessages (Nat.zero_add _) (Nat.zero_add _)
    (Nat.zero_add _) (joinOptions_none_left Nat.min _) (joinOptions_none_left Nat.max _)
    (Nat.zero_add _) (Nat.zero_add _) (Nat.zero_add _)

/-! ### Runs recorded together -/

/-- To record a run is to merge the report of that run alone. -/
theorem record_eq_merge (r : TestReport) (run : Run) :
    r.recordRun run = r.merge (recordRun {} run) := by
  have hmerge := r.merge_record run.outcome run.fair run.reachedMax run.config ""
  rw [firstName_empty] at hmerge
  exact hmerge.symm

/-- A report of some more runs is merged as its runs are recorded. -/
theorem merge_recordAll (a b : TestReport) (runs : List Run) :
    a.merge (b.recordAll runs) = (a.merge b).recordAll runs := by
  induction runs generalizing b with
  | nil => rfl
  | cons run runs ih =>
      have hfirst : a.merge (b.recordRun run) = (a.merge b).recordRun run := by
        rw [record_eq_merge b, record_eq_merge (a.merge b), merge_assoc]
      show a.merge ((b.recordRun run).recordAll runs) = ((a.merge b).recordRun run).recordAll runs
      rw [ih, hfirst]

/-- Runs that are recorded apart and merged are recorded together: under any name, the report of
some runs merged with that of others is the report of the one and then the others. Merging is
associative, it has the empty report as its identity on both sides, and it is commutative but for
the name, for which the order matters where the two have different names. -/
theorem merge_is_recording :
    (∀ (name : String) (xs ys : List Run),
      ((ofName name).recordAll xs).merge ((ofName name).recordAll ys) =
        (ofName name).recordAll (xs ++ ys)) ∧
    ∀ a b c : TestReport,
      (a.merge b).merge c = a.merge (b.merge c) ∧
      merge {} a = a ∧ a.merge {} = a ∧
      (a.merge b).named "" = (b.merge a).named "" ∧
      ((a.merge b).strategy = (b.merge a).strategy ↔
        a.strategy = "" ∨ b.strategy = "" ∨ a.strategy = b.strategy) := by
  constructor
  · intro name xs ys
    -- merging the name alone changes nothing, and the runs are recorded behind it
    have hname : ((ofName name).recordAll xs).merge (ofName name) = (ofName name).recordAll xs := by
      refine merge_ofName ?_
      rw [strategy_recordAll]
      rfl
    rw [merge_recordAll, hname, recordAll_append]
  · intro a b c
    exact ⟨merge_assoc a b c, empty_merge a, merge_empty a, merge_comm_named a b,
      strategy_merge_comm_iff⟩

/-- A run of three steps that fails with tails, and one of two steps that hits the bound and fails
with heads. -/
def tossRuns : List Run :=
  [⟨{ bug := some ⟨.assertion, "tails"⟩, steps := 3 }, true, false, {}⟩,
    ⟨{ bug := some ⟨.assertion, "heads"⟩, steps := 2 }, true, true, { maxUnfairSteps := 2 }⟩]

theorem merge_is_recording_of_tosses :
    let random := (ofName "Random").recordAll tossRuns
    let replay := (ofName "Replay").recordAll (tossRuns.drop 1)
    (random.merge replay).merge random = random.merge (replay.merge random) ∧
      (random.merge replay).named "" = (replay.merge random).named "" ∧
      (random.merge replay).strategy ≠ (replay.merge random).strategy ∧
      (random.merge replay).messages = ["heads", "tails"] ∧
      (random.merge replay).minFairSteps = some 2 ∧ (random.merge replay).bugs = 3 := by
  intro random replay
  obtain ⟨-, hlaws⟩ := merge_is_recording
  obtain ⟨hassoc, -, -, hcomm, hname⟩ := hlaws random replay random
  refine ⟨hassoc, hcomm, ?_, by decide +kernel, rfl, rfl⟩
  rw [Ne, hname]
  decide +kernel

end TestReport

end Interleave
