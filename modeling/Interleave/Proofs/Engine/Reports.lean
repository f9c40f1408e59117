import Interleave.TestReport

/-!
# Recording and merging reports

A report is merged with that of one run by recording the run in it (`TestReport.merge_record`), and
of several names the first one that is not empty stays (`TestReport.firstName`). Apart from that
the name of a report plays no part: two reports that differ only in their names
(`TestReport.named`) still do when the same runs are recorded in them.
-/

namespace Interleave

namespace TestReport

/-- The first of some texts that is not empty, or else the empty one. -/
def firstName (names : List String) : String :=
  (names.find? fun name => !name.isEmpty).getD ""

theorem firstName_cons (name : String) (names : List String) :
    firstName (name :: names) = if name.isEmpty then firstName names else name := by
  unfold firstName
  cases hempty : name.isEmpty with
  | true => simp [hempty]
  | false => simp [hempty]

theorem firstName_singleton (name : String) : firstName [name] = name := by
  rw [firstName_cons]
  split
  · rename_i hempty
    exact (String.isEmpty_iff.mp hempty).symm
  · rfl

/-- Of three names the first one can be found in two steps. -/
theorem firstName_firstName (name name' : String) (names : List String) :
    firstName (firstName [name, name'] :: names) = firstName (name :: name' :: names) := by
  rw [firstName_cons name [name'], firstName_singleton, firstName_cons name]
  split
  · rfl
  · rename_i hempty
    rw [firstName_cons, if_neg hempty]

/-- The same statistics under another name. -/
def named (r : TestReport) (name : String) : TestReport :=
  { r with strategy := name }

variable (r : TestReport) (outcome : Outcome) (fair reachedMax : Bool) (c : Configuration)

@[simp]
theorem named_named (name name' : String) : (r.named name).named name' = r.named name' := rfl

@[simp]
theorem strategy_named (name : String) : (r.named name).strategy = name := rfl

/-- To merge reports that differ only in their names gives reports that do so. -/
theorem merge_named {a a' b b' : TestReport} (ha : a'.named "" = a.named "")
    (hb : b'.named "" = b.named "") : (a'.merge b').named "" = (a.merge b).named "" := by
  have hmerge (a b : TestReport) :
      (a.merge b).named "" = ((a.named "").merge (b.named "")).named "" := rfl
  rw [hmerge a' b', ha, hb, ← hmerge a b]

/-- A run is recorded in the same way under every name. -/
theorem record_named (name : String) :
    (r.named name).record outcome fair reachedMax c =
      (r.record outcome fair reachedMax c).named name := by
  unfold record
  cases fair <;> cases outcome.bug <;> rfl

theorem strategy_record : (r.record outcome fair reachedMax c).strategy = r.strategy := by
  unfold record
  cases fair <;> cases outcome.bug <;> rfl

theorem runs_record : (r.record outcome fair reachedMax c).runs = r.runs + 1 := by
  unfold record
  cases fair with
  | true => cases outcome.bug <;> exact Nat.add_right_comm _ 1 _
  | false => cases outcome.bug <;> rfl

theorem bugs_record :
    (r.record outcome fair reachedMax c).bugs = r.bugs + outcome.bug.isSome.toNat := by
  unfold record
  cases fair <;> cases outcome.bug <;> rfl

/-- To merge the report of one run is to record the run, under the first name. -/
theorem merge_record (name : String) :
    r.merge (({ strategy := name } : TestReport).record outcome fair reachedMax c) =
      (r.named (firstName [r.strategy, name])).record outcome fair reachedMax c := by
  have hname : (if r.strategy.isEmpty then name else r.strategy) =
      firstName [r.strategy, name] := by
    rw [firstName_cons, firstName_singleton]
  unfold merge
  rw [strategy_record, hname]
  unfold record
  cases fair <;> cases outcome.bug <;>
    simp [named, joinOptions, insertAllAscending, insertAscending]

end TestReport

end Interleave
