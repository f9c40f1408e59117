import Interleave.Proofs.EventTree.Places
import Interleave.Proofs.Scheduler.Listing
import Mathlib.Order.Lattice.Nat

/-!
# Hot monitors of a recording

A recorder enters a monitor that turns hot with the step at which the operation stands that says so
(`EventTree.StandsAt`), and keeps this entry until the monitor turns cold
(`Recorder.lookup_recordMonitor`). Nothing else changes the table of hot monitors, and what becomes
of a run is not recorded before its end (`Recorder.sameReport_hear`, `Recorder.Undecided`).
-/

namespace Interleave

namespace EventTree

/-- The places of the steps of an operation. -/
def stepsOf (t : EventTree) (id : OperationId) : Set Nat :=
  {k | ∃ step, t.steps[k]? = some step ∧ step.source = id}

/-- The step at which an operation stands: the latest of its own, or the last step of all if it has
none. -/
def StandsAt (t : EventTree) (id : OperationId) (k : Nat) : Prop :=
  IsGreatest (t.stepsOf id) k ∨ t.stepsOf id = ∅ ∧ k + 1 = t.size

theorem bddAbove_stepsOf (t : EventTree) (id : OperationId) : BddAbove (t.stepsOf id) := by
  refine ⟨t.size, ?_⟩
  rintro k ⟨step, hstep, -⟩
  exact Nat.le_of_lt (Array.getElem?_eq_some_iff.mp hstep).1

end EventTree

namespace Recorder

/-! ## Where operations stand -/

section Accounts

variable {r : Recorder} {cut : Cause → Nat → Prop} (h : r.Accounts cut)

include h

/-- The table of latest steps has the last one of each operation. -/
theorem Accounts.latestOf_iff {id : OperationId} {k : Nat} :
    r.latestOf id = some k ↔ IsGreatest (r.tree.stepsOf id) k := by
  rw [h.succession.table]
  constructor
  · intro hawaits
    obtain ⟨a, ha, hopens⟩ := hawaits.opened
    obtain ⟨step, hstep, rfl⟩ := EventTree.exists_step_of_happening ha
    refine ⟨⟨step, hstep, Option.some.inj hopens⟩, ?_⟩
    rintro j ⟨step', hstep', hsource⟩
    by_contra hlater
    have hsince := hawaits.since j _ (Nat.lt_of_not_le hlater)
      (EventTree.getElem?_happenings_of_step hstep')
    exact hsince.1 (congrArg some hsource)
  · rintro ⟨⟨step, hstep, hsource⟩, hlast⟩
    refine ⟨⟨_, EventTree.getElem?_happenings_of_step hstep, congrArg some hsource⟩,
      fun j a hj ha => ?_, fun _ => False.elim⟩
    obtain ⟨step', hstep', rfl⟩ := EventTree.exists_step_of_happening ha
    have hother : step'.source ≠ id := fun hsource' =>
      Nat.not_le_of_lt hj (hlast ⟨step', hstep', hsource'⟩)
    exact ⟨fun hopens => hother (Option.some.inj hopens),
      fun hcloses => hother (Option.some.inj hcloses)⟩

/-- What a recorder takes for the step at which an operation stands is that step. -/
theorem Accounts.standsAt (id : OperationId) :
    r.tree.StandsAt id ((r.latestOf id).getD r.tree.lastIndex) := by
  cases hlatest : r.latestOf id with
  | some k => exact Or.inl (h.latestOf_iff.mp hlatest)
  | none =>
      refine Or.inr ⟨?_, Nat.sub_add_cancel h.size_pos⟩
      -- if it had steps there were a greatest one, and the table would have it
      by_contra hne
      have hsome : (r.tree.stepsOf id).Nonempty := Set.nonempty_iff_ne_empty.mpr hne
      have hgreatest : IsGreatest (r.tree.stepsOf id) (sSup (r.tree.stepsOf id)) :=
        ⟨Nat.sSup_mem hsome (r.tree.bddAbove_stepsOf id),
          fun _ hk => le_csSup (r.tree.bddAbove_stepsOf id) hk⟩
      rw [h.latestOf_iff.mpr hgreatest] at hlatest
      cases hlatest

/-- A dialogue keeps the account. -/
theorem Accounts.hearAll (l : List Exchange) : ∃ cut', (r.hearAll l).Accounts cut' := by
  induction l generalizing r cut with
  | nil => exact ⟨cut, h⟩
  | cons e l ih =>
      obtain ⟨cut', he⟩ := h.hear e
      exact ih he

end Accounts

/-! ## What changes the hot monitors -/

/-- Neither a hot monitor nor the result of the run has changed. -/
structure SameReport (r r' : Recorder) : Prop where
  hotMonitors : r'.hotMonitors = r.hotMonitors
  bugStep : r'.tree.bugStep = r.tree.bugStep
  livenessMonitor : r'.tree.livenessMonitor = r.tree.livenessMonitor

theorem SameReport.refl (r : Recorder) : r.SameReport r :=
  ⟨rfl, rfl, rfl⟩

theorem SameReport.trans {r r' r'' : Recorder} (h : r.SameReport r') (h' : r'.SameReport r'') :
    r.SameReport r'' :=
  ⟨h'.hotMonitors.trans h.hotMonitors, h'.bugStep.trans h.bugStep,
    h'.livenessMonitor.trans h.livenessMonitor⟩

theorem sameReport_recordStart (r : Recorder) (id : OperationId) (initial : Option Event) :
    r.SameReport (r.recordStart id initial).2 := by
  by_cases hid : id = .harness
  · rw [recordStart, if_pos hid]
    exact .refl r
  · rcases r.recordStart_cases hid initial with ⟨create, -, heq⟩ | ⟨-, heq⟩ <;> rw [heq] <;>
      exact ⟨rfl, rfl, rfl⟩

theorem sameReport_recordReceive (r : Recorder) (receiver : OperationId) (event : Event) :
    r.SameReport (r.recordReceive receiver event).2 := by
  rcases r.recordReceive_cases receiver event with ⟨message, send, -, -, heq⟩ | ⟨-, heq⟩ <;>
    rw [heq] <;> exact ⟨rfl, rfl, rfl⟩

theorem sameReport_markWithheld (r : Recorder) (send : Nat) :
    r.SameReport (r.markWithheld send) := by
  unfold markWithheld
  split
  · split <;> exact ⟨rfl, rfl, rfl⟩
  · exact .refl r

theorem sameReport_recordDelivery (r : Recorder) (sender target : OperationId) (event : Event)
    (delivery : Delivery) : r.SameReport (r.recordDelivery sender target event delivery) := by
  have hsend : r.SameReport (r.recordSend sender target event).2 := by
    rw [recordSend_eq]
    exact ⟨rfl, rfl, rfl⟩
  cases delivery with
  | deliver => exact hsend
  | withhold => exact hsend.trans (sameReport_markWithheld _ _)

/-- Only notices about monitors change anything about them. -/
theorem sameReport_hear {e : Exchange} (h : e.alarm? = none) (r : Recorder) :
    r.SameReport (r.hear e) := by
  cases e with
  | notice n =>
      cases n with
      | created creator created => exact ⟨rfl, rfl, rfl⟩
      | started id initial => exact sameReport_recordStart r id initial
      | received receiver event => exact sameReport_recordReceive r receiver event
      | chosen id choice => exact ⟨rfl, rfl, rfl⟩
      | monitored monitor sender hot => cases h
  | send sender target event delivery =>
      exact sameReport_recordDelivery r sender target event delivery
  | bound | fairness | operation | boolean | integer | logged => exact .refl r

theorem sameReport_hearAll {l : List Exchange} (h : alarms l = []) (r : Recorder) :
    r.SameReport (r.hearAll l) := by
  induction l generalizing r with
  | nil => exact .refl r
  | cons e l ih =>
      obtain ⟨he, hl⟩ := List.forall_mem_cons.mp (List.filterMap_eq_nil_iff.mp h)
      exact (sameReport_hear he r).trans (ih (List.filterMap_eq_nil_iff.mpr hl) (r.hear e))

/-- A notice sets the entry of its own monitor only, and does not change the entry of a monitor that
is hot already. -/
theorem lookup_recordMonitor (r : Recorder) (m name : String) (sender : OperationId)
    (hot : Bool) :
    (r.recordMonitor name sender hot).hotMonitors.lookup m =
      if m = name then
        if hot then
          some ((r.hotMonitors.lookup m).getD ((r.latestOf sender).getD r.tree.lastIndex))
        else none
      else r.hotMonitors.lookup m := by
  unfold recordMonitor
  cases hot with
  | true =>
      simp only [if_true]
      cases hname : r.hotMonitors.lookup name with
      | some since =>
          dsimp only
          split
          · rename_i hm
            rw [hm, hname, Option.getD_some]
          · rfl
      | none =>
          dsimp only
          rw [lookup_assoc]
          simp only [beq_iff_eq]
          split
          · rename_i hm
            rw [hm, hname, Option.getD_none]
          · rfl
  | false =>
      simp only [Bool.false_eq_true, if_false]
      rw [lookup_dissoc]
      simp only [beq_iff_eq]

/-- What becomes of the run has not been recorded yet. -/
structure Undecided (r : Recorder) : Prop where
  bugStep : r.tree.bugStep = none
  livenessMonitor : r.tree.livenessMonitor = none

theorem undecided_empty : empty.Undecided :=
  ⟨rfl, rfl⟩

theorem Undecided.hear {r : Recorder} (h : r.Undecided) (e : Exchange) : (r.hear e).Undecided := by
  cases halarm : e.alarm? with
  | none =>
      have hsame := sameReport_hear halarm r
      exact ⟨hsame.bugStep.trans h.bugStep, hsame.livenessMonitor.trans h.livenessMonitor⟩
  | some alarm =>
      -- a notice about a monitor leaves the tree as it is
      have htree : (r.hear e).tree = r.tree := by
        cases e with
        | notice n =>
            cases n with
            | monitored monitor sender hot => exact tree_record_of_none rfl
            | created | started | received | chosen => cases halarm
        | bound | fairness | operation | boolean | integer | send | logged => cases halarm
      exact ⟨htree ▸ h.bugStep, htree ▸ h.livenessMonitor⟩

theorem Undecided.hearAll {r : Recorder} (h : r.Undecided) (l : List Exchange) :
    (r.hearAll l).Undecided := by
  induction l generalizing r with
  | nil => exact h
  | cons e l ih => exact ih (h.hear e)

/-! ## The result of a run -/

/-- Only a liveness bug leaves the name of a monitor behind. -/
theorem Undecided.livenessMonitor_recordEnd {r : Recorder} (h : r.Undecided)
    (bug : Option BugKind) (m : String) :
    (r.recordEnd bug).tree.livenessMonitor = some m ↔ bug = some (.liveness m) := by
  have hnone : r.tree.livenessMonitor ≠ some m := by
    rw [h.livenessMonitor]
    nofun
  rcases bug with _ | kind
  · exact iff_of_false hnone nofun
  · cases kind with
    | liveness monitor =>
        show some monitor = some m ↔ _
        rw [Option.some.injEq, Option.some.injEq, BugKind.liveness.injEq]
    | assertion | livelock | stepBound | uncontrolledSynchronization =>
        exact iff_of_false hnone nofun

theorem bugStep_recordEnd_of_hot {r : Recorder} {m : String} {k : Nat}
    (hk : r.hotMonitors.lookup m = some k) :
    (r.recordEnd (some (.liveness m))).tree.bugStep = some k := by
  show some ((r.hotMonitors.lookup m).getD r.tree.lastIndex) = some k
  rw [hk, Option.getD_some]

theorem bugStep_recordEnd_of_other (r : Recorder) {kind : BugKind}
    (hkind : ∀ m, kind ≠ .liveness m) :
    (r.recordEnd (some kind)).tree.bugStep = some r.tree.lastIndex := by
  cases kind with
  | liveness monitor => exact absurd rfl (hkind monitor)
  | assertion | livelock | stepBound | uncontrolledSynchronization => rfl

theorem size_recordEnd (r : Recorder) (bug : Option BugKind) :
    (r.recordEnd bug).tree.size = r.tree.size :=
  congrArg Array.size (same_recordEnd r bug).1

end Recorder

end Interleave
