import Interleave.Proofs.EventTree.Places
import Mathlib.Logic.Relation

/-!
# Operations in a tree

While a program runs under a recorder, an operation other than the harness is at one of three stages
(`Recorder.Stage`): it has not been created and the tree says nothing of it; it has been created
once and the creation waits for its start; or it has started once, at its first step, which the
creation is linked to. Only an operation that has begun takes steps, so that every step of the tree
can be reached from the root along the links (`Recorder.Accounts.reachable`).
-/

namespace Interleave

/-- A link of the tree leads from one step to another. -/
def EventTree.Leads (t : EventTree) (i j : Nat) : Prop :=
  t.directChild? i = some j ∨ t.createdChild? i = some j

namespace Recorder

variable {r r' : Recorder} {cut : Cause → Nat → Prop} {a : Happening} {lost : Bool}

/-- How far an operation has come, and what the recording says about it. It is absent, or it has
been created and has or has not begun. -/
inductive Stage (r : Recorder) (x : OperationId) : Option Bool → Prop
  | absent (creations : r.tree.places (Happening.isCreateOf x) = [])
      (steps : r.tree.places (Happening.isStepOf x) = []) : Stage r x none
  | created {i : Nat} (creations : r.tree.places (Happening.isCreateOf x) = [i])
      (steps : r.tree.places (Happening.isStepOf x) = [])
      (waits : r.pending (.creation x) = some i) : Stage r x (some false)
  | begun {i j : Nat} {rest : List Nat}
      (creations : r.tree.places (Happening.isCreateOf x) = [i])
      (steps : r.tree.places (Happening.isStepOf x) = j :: rest)
      (starts : r.tree.places (Happening.isStartOf x) = [j])
      (linked : r.tree.createdChild? i = some j) : Stage r x (some true)

/-- At the start of a run no operation but the harness is there. -/
theorem stage_empty {x : OperationId} (hx : x ≠ .harness) : empty.Stage x none :=
  .absent (places_empty (by simp [Happening.isCreateOf]))
    (places_empty (by simp [Happening.isStepOf, Ne.symm hx]))

theorem Stage.congr {x : OperationId} {stage : Option Bool} (h : r.Stage x stage)
    (htree : r'.tree = r.tree) (hpending : r'.pending = r.pending) : r'.Stage x stage := by
  cases h with
  | absent creations steps => exact .absent (by rwa [htree]) (by rwa [htree])
  | created creations steps waits =>
      exact .created (by rwa [htree]) (by rwa [htree]) (by rwa [hpending])
  | begun creations steps starts linked =>
      exact .begun (by rwa [htree]) (by rwa [htree]) (by rwa [htree]) (by rwa [htree])

/-- A start is a step. -/
theorem places_isStartOf_of_isStepOf {x : OperationId}
    (h : r.tree.places (Happening.isStepOf x) = []) :
    r.tree.places (Happening.isStartOf x) = [] := by
  rw [List.eq_nil_iff_forall_not_mem] at h ⊢
  intro k hk
  obtain ⟨b, hb, hstart⟩ := EventTree.mem_places.mp hk
  refine h k (EventTree.mem_places.mpr ⟨b, hb, ?_⟩)
  simp only [Happening.isStartOf, decide_eq_true_eq] at hstart
  simpa [Happening.isStepOf] using hstart.2

/-! ## One more exchange -/

section Notes

variable (h : r.Notes a lost r')

include h

theorem Notes.places_of_false {p : Happening → Bool} (hp : p a = false) :
    r'.tree.places p = r.tree.places p := by
  rw [h.places, hp]
  simp

theorem Notes.places_of_true {p : Happening → Bool} (hp : p a = true) :
    r'.tree.places p = r.tree.places p ++ [r.tree.size] := by
  rw [h.places, hp]
  rfl

/-- An operation stays at its stage while it is neither created nor started; it takes part only if
it has begun. -/
theorem Notes.stage (haccounts : r.Accounts cut) {x : OperationId} {stage : Option Bool}
    (hstage : r.Stage x stage) (hcreate : a.isCreateOf x = false)
    (hstart : a.isStartOf x = false) (hacts : a.source = x → stage = some true) :
    r'.Stage x stage := by
  have hcreations := h.places_of_false hcreate
  have hidle : stage ≠ some true →
      r'.tree.places (Happening.isStepOf x) = r.tree.places (Happening.isStepOf x) := by
    intro hne
    refine h.places_of_false ?_
    simp only [Happening.isStepOf, decide_eq_false_iff_not]
    exact fun hsource => hne (hacts hsource)
  cases hstage with
  | absent creations steps =>
      exact .absent (hcreations.trans creations) ((hidle nofun).trans steps)
  | created creations steps waits =>
      refine .created (hcreations.trans creations) ((hidle nofun).trans steps) ?_
      rw [h.pending_old ?_ ?_]
      · exact waits
      · rw [Ne, Happening.brings?_eq_creation_iff]
        simpa [Happening.isCreateOf] using hcreate
      · rw [Ne, Happening.cause?_eq_creation_iff]
        simpa [Happening.isStartOf] using hstart
  | @begun i j rest creations steps starts linked =>
      -- a further step of the operation stands behind its first one
      have hsteps : ∃ rest', r'.tree.places (Happening.isStepOf x) = j :: rest' := by
        rw [h.places, steps]
        exact ⟨_, List.cons_append⟩
      obtain ⟨rest', hsteps⟩ := hsteps
      exact .begun (hcreations.trans creations) hsteps ((h.places_of_false hstart).trans starts)
        (h.createdChild?_old haccounts linked)

/-- An operation that is not there can be created by another one. -/
theorem Notes.stage_create {x : OperationId} (hstage : r.Stage x none) (hkind : a.kind = .create)
    (htarget : a.target = x) (hother : a.source ≠ x) (hlost : lost = false) :
    r'.Stage x (some false) := by
  cases hstage with
  | absent creations steps =>
      refine .created (i := r.tree.size) ?_ ?_ ?_
      · rw [h.places_of_true (by simp [Happening.isCreateOf, hkind, htarget]), creations]
        rfl
      · rw [h.places_of_false (by simp [Happening.isStepOf, hother]), steps]
      · rw [h.pending, if_pos (Happening.brings?_eq_creation_iff.mpr ⟨hkind, htarget⟩).symm, hlost]
        rfl

/-- An operation that has been created can start. -/
theorem Notes.stage_start {x : OperationId} (hstage : r.Stage x (some false))
    (hkind : a.kind = .start) (hsource : a.source = x) : r'.Stage x (some true) := by
  cases hstage with
  | @created i creations steps waits =>
      have hsteps : r'.tree.places (Happening.isStepOf x) = [r.tree.size] := by
        rw [h.places_of_true (by simp [Happening.isStepOf, hsource]), steps]
        rfl
      have hlink :=
        h.createdChild?_new (Happening.cause?_eq_creation_iff.mpr ⟨hkind, hsource⟩) waits
      refine .begun ?_ hsteps ?_ hlink
      · rw [h.places_of_false (by simp [Happening.isCreateOf, hkind]), creations]
      · rw [h.places_of_true (by simp [Happening.isStartOf, hkind, hsource]),
          places_isStartOf_of_isStepOf steps]
        rfl

end Notes

/-! ## Reading the roster -/

/-- An operation with a step has started once, at its first step, which is linked from its one
creation. -/
theorem Stage.exists_start {x : OperationId} {stage : Option Bool} (h : r.Stage x stage)
    {k : Nat} (hk : k ∈ r.tree.places (Happening.isStepOf x)) :
    ∃ i j rest, r.tree.places (Happening.isCreateOf x) = [i] ∧
      r.tree.places (Happening.isStepOf x) = j :: rest ∧
        r.tree.places (Happening.isStartOf x) = [j] ∧ r.tree.createdChild? i = some j := by
  cases h with
  | absent creations steps => simp [steps] at hk
  | created creations steps waits => simp [steps] at hk
  | begun creations steps starts linked => exact ⟨_, _, _, creations, steps, starts, linked⟩

/-- A step that is not the root is linked from an earlier one. -/
theorem Accounts.exists_leads (haccounts : r.Accounts cut)
    (hstages : ∀ x ≠ .harness, ∃ stage, r.Stage x stage) {k : Nat} (hk : k < r.tree.size)
    (hroot : k ≠ 0) : ∃ i < k, r.tree.Leads i k := by
  obtain ⟨b, hb⟩ : ∃ b, r.tree.happenings[k]? = some b := by
    rw [← r.tree.length_happenings] at hk
    exact ⟨_, List.getElem?_eq_getElem hk⟩
  by_cases hsource : b.source = .harness
  · obtain ⟨i, hi, hlink⟩ := haccounts.exists_directChild? haccounts.root hb
      (Nat.pos_of_ne_zero hroot) hsource.symm
    exact ⟨i, hi, Or.inl hlink⟩
  · obtain ⟨stage, hstage⟩ := hstages b.source hsource
    have hmem : k ∈ r.tree.places (Happening.isStepOf b.source) :=
      EventTree.mem_places.mpr ⟨b, hb, by simp [Happening.isStepOf]⟩
    obtain ⟨i, j, rest, -, hsteps, -, hlink⟩ := hstage.exists_start hmem
    have hsorted := r.tree.pairwise_places (Happening.isStepOf b.source)
    have hfirst : j ∈ r.tree.places (Happening.isStepOf b.source) := by simp [hsteps]
    rw [hsteps] at hmem hsorted
    rcases List.mem_cons.mp hmem with rfl | hrest
    · -- the start is linked from the creation
      exact ⟨i, (haccounts.causation.forward hlink).1, Or.inr hlink⟩
    · obtain ⟨c, hc, hstep⟩ := EventTree.mem_places.mp hfirst
      obtain ⟨i', hi', hlink'⟩ := haccounts.exists_directChild? hc hb
        ((List.pairwise_cons.mp hsorted).1 k hrest) (by simpa [Happening.isStepOf] using hstep)
      exact ⟨i', hi', Or.inl hlink'⟩

/-- Every step can be reached from the root. -/
theorem Accounts.reachable (haccounts : r.Accounts cut)
    (hstages : ∀ x ≠ .harness, ∃ stage, r.Stage x stage) {k : Nat} (hk : k < r.tree.size) :
    Relation.ReflTransGen r.tree.Leads 0 k := by
  induction k using Nat.strongRecOn with
  | ind k ih =>
      by_cases hroot : k = 0
      · rw [hroot]
      · obtain ⟨i, hi, hleads⟩ := haccounts.exists_leads hstages hk hroot
        exact (ih i hi (Nat.lt_trans hi hk)).tail hleads

end Recorder

end Interleave
