import Interleave.Proofs.EventTree.Growth

/-!
# The decisions of a tree

Every step of a tree but the first one stands for a decision: a choice for its value and every other
step for the scheduling of the operation that took it (`EventTree.decisions`). A tree that is being
recorded gets the decisions of what is told, in order (`Recorder.Sound.decisions_hearAll`).
-/

namespace Interleave

/-- The decision that a step of the given kind and source stands for. -/
def StepKind.decision (source : OperationId) : StepKind → Decision
  | .boolean b => .boolean b
  | .integer n => .integer n
  | _ => .schedule source

/-- The decision that a step stands for. -/
def Step.decision (s : Step) : Decision :=
  s.kind.decision s.source

/-- The decisions of the steps behind the first one, in order. -/
def EventTree.decisions (t : EventTree) : List Decision :=
  t.steps.toList.tail.map Step.decision

/-- Only a step that is no choice stands for the scheduling of an operation, that of its source. -/
theorem Step.decision_eq_schedule {s : Step} {d : OperationId}
    (h : s.decision = .schedule d) : s.kind.isChoice = false ∧ s.source = d := by
  unfold Step.decision at h
  cases hkind : s.kind with
  | boolean b =>
      rw [hkind] at h
      cases h
  | integer n =>
      rw [hkind] at h
      cases h
  | start =>
      rw [hkind] at h
      exact ⟨rfl, Decision.schedule.inj h⟩
  | create =>
      rw [hkind] at h
      exact ⟨rfl, Decision.schedule.inj h⟩
  | send =>
      rw [hkind] at h
      exact ⟨rfl, Decision.schedule.inj h⟩
  | receive =>
      rw [hkind] at h
      exact ⟨rfl, Decision.schedule.inj h⟩

/-- The decision of the step that an exchange makes. -/
def Exchange.told? (e : Exchange) : Option Decision :=
  e.deed?.map fun (kind, source, _) => kind.decision source

/-- The decisions of the steps that a dialogue makes, in order. -/
def told (l : List Exchange) : List Decision :=
  l.filterMap Exchange.told?

@[simp]
theorem told_nil : told [] = [] := rfl

@[simp]
theorem told_append (l l' : List Exchange) : told (l ++ l') = told l ++ told l' :=
  List.filterMap_append

theorem told_cons (e : Exchange) (l : List Exchange) :
    told (e :: l) = e.told?.toList ++ told l := by
  cases h : e.told? <;> simp [told, h]

/-- A dialogue that makes no step changes nothing about the tree. -/
theorem Recorder.tree_hearAll_of_told {l : List Exchange} (h : told l = []) (r : Recorder) :
    (r.hearAll l).tree = r.tree := by
  induction l generalizing r with
  | nil => rfl
  | cons e l ih =>
      rw [told_cons, List.append_eq_nil_iff, Option.toList_eq_nil_iff] at h
      have hdeed : e.deed? = none := Option.map_eq_none_iff.mp h.1
      rw [hearAll_cons, ih h.2, (hear_of_deed?_eq_none hdeed r).1]

namespace Recorder

variable {r r' : Recorder} {kind : StepKind} {source target : OperationId}

/-- One more step stands for one more decision. -/
theorem Grows.map_decision (h : r.Grows kind source target r') :
    r'.tree.steps.toList.map Step.decision =
      r.tree.steps.toList.map Step.decision ++ [kind.decision source] := by
  have hlength : (r.tree.steps.toList.map Step.decision).length = r.tree.size := by
    simp [EventTree.size]
  have hlength' : (r'.tree.steps.toList.map Step.decision).length = r.tree.size + 1 := by
    rw [← h.size]
    simp [EventTree.size]
  apply List.ext_getElem?
  intro k
  rcases Nat.lt_trichotomy k r.tree.size with hk | rfl | hk
  · -- an old step is continued with the same kind and source
    have hold := Array.getElem?_eq_getElem hk
    obtain ⟨step, hstep, hcontinues⟩ := h.tree.steps k _ hold
    rw [List.getElem?_append_left (by omega)]
    simp only [List.getElem?_map, Array.getElem?_toList, hstep, hold, Option.map_some,
      Option.some.injEq]
    unfold Step.decision
    rw [hcontinues.kind, hcontinues.source]
  · obtain ⟨step, hstep, -, hkind, hsource, -⟩ := h.step
    rw [List.getElem?_append_right (by omega), hlength, Nat.sub_self]
    simp only [List.getElem?_map, Array.getElem?_toList, hstep, Option.map_some, Step.decision,
      hkind, hsource, List.getElem?_cons_zero]
  · rw [List.getElem?_eq_none (by omega), List.getElem?_eq_none]
    rw [List.length_append, List.length_singleton]
    omega

/-- A tree with one more step has the decisions it had and that of the step. -/
theorem Grows.decisions (h : r.Grows kind source target r') (hroot : 0 < r.tree.size) :
    r'.tree.decisions = r.tree.decisions ++ [kind.decision source] := by
  have hne : r.tree.steps.toList.map Step.decision ≠ [] := by
    intro hnil
    have hlength := congrArg List.length hnil
    rw [List.length_map, Array.length_toList, List.length_nil] at hlength
    exact Nat.ne_of_gt hroot hlength
  unfold EventTree.decisions
  rw [List.map_tail, List.map_tail, h.map_decision, List.tail_append_of_ne_nil hne]

/-- A recorded tree gets the decisions of the dialogue. -/
theorem Sound.decisions_hearAll (h : r.Sound) (hroot : 0 < r.tree.size) (l : List Exchange) :
    (r.hearAll l).tree.decisions = r.tree.decisions ++ told l := by
  induction l generalizing r with
  | nil => simp
  | cons e l ih =>
      have hhear := h.hear e
      have hstep : (r.hear e).tree.decisions = r.tree.decisions ++ e.told?.toList := by
        unfold Exchange.told?
        cases hdeed : e.deed? with
        | none =>
            rw [(hear_of_deed?_eq_none hdeed r).1]
            simp
        | some deed =>
            obtain ⟨kind, source, target⟩ := deed
            exact (h.grows_hear hdeed).decisions hroot
      rw [hearAll_cons, ih hhear.1 (Nat.lt_of_lt_of_le hroot hhear.2.size), hstep, told_cons,
        List.append_assoc]

end Recorder

end Interleave
