import Interleave.Program.Machine
import Interleave.Proofs.Strategy.Exchange
import Interleave.Strategy.Recorded

/-!
# Recording a dialogue

What a recorder makes of an exchange is `Recorder.hear`: notices and sends are recorded, everything
else is not. The class `Records` says that the states of a strategy contain such a recording of the
run in progress. A recording strategy follows exactly the dialogues that its inner strategy follows
(`follows_recorded`).
-/

namespace Interleave

namespace Recorder

/-- The recording after one exchange. -/
def hear (r : Recorder) : Exchange → Recorder
  | .notice n => r.record n
  | .send sender target event delivery => r.recordDelivery sender target event delivery
  | _ => r

/-- The recording after a dialogue. -/
def hearAll (r : Recorder) (l : List Exchange) : Recorder :=
  l.foldl hear r

@[simp]
theorem hearAll_nil (r : Recorder) : r.hearAll [] = r := rfl

@[simp]
theorem hearAll_cons (r : Recorder) (e : Exchange) (l : List Exchange) :
    r.hearAll (e :: l) = (r.hear e).hearAll l := rfl

theorem hearAll_append (r : Recorder) (l l' : List Exchange) :
    r.hearAll (l ++ l') = (r.hearAll l).hearAll l' :=
  List.foldl_append

end Recorder

/-- The states of a strategy contain a recording of the run in progress. -/
class Records (σ : Type) [Strategy σ] where
  /-- The recording. -/
  recorder : σ → Recorder
  /-- Every exchange is recorded. -/
  hears : ∀ {e : Exchange} {s s' : σ}, e.Moves s s' → recorder s' = (recorder s).hear e

theorem Records.hearsAll {σ : Type} [Strategy σ] [Records σ] {s s' : σ} {l : List Exchange}
    (h : Follows s l s') : Records.recorder s' = (Records.recorder s).hearAll l := by
  induction l generalizing s with
  | nil => rw [follows_nil.mp h, Recorder.hearAll_nil]
  | cons e l ih =>
      obtain ⟨middle, he, hl⟩ := h
      rw [ih hl, Records.hears he, Recorder.hearAll_cons]

/-- The tree that has been recorded of a run, with the result of the run. -/
def Machine.recordedTree {σ β : Type} [Strategy σ] [Records σ] (m : Machine σ β) : EventTree :=
  ((Records.recorder m.scheduler.strategy).recordEnd (m.scheduler.bug.map (·.kind))).tree

section Recorded

theorem delegate_eq_iff {σ α : Type} {s s' : Recorded σ} {request : σ → α × σ} {answer : α} :
    s.delegate request = (answer, s') ↔
      ∃ i', request s.inner = (answer, i') ∧ s' = s.withInner i' := by
  unfold Recorded.delegate
  obtain ⟨found, left⟩ := request s.inner
  constructor
  · intro h
    obtain ⟨rfl, rfl⟩ := Prod.mk.inj h
    exact ⟨left, rfl, rfl⟩
  · rintro ⟨i', h, rfl⟩
    obtain ⟨rfl, rfl⟩ := Prod.mk.inj h
    rfl

variable {σ : Type} [Strategy σ] {i i' : σ} {r : Recorder} {summary : Option RunSummary}

/-- A recording strategy takes part in an exchange as its inner strategy does. -/
theorem moves_recorded {e : Exchange} {s' : Recorded σ} :
    e.Moves (⟨i, r, summary⟩ : Recorded σ) s' ↔
      ∃ i', e.Moves i i' ∧ s' = ⟨i', r.hear e, summary⟩ := by
  cases e with
  | bound reached =>
      constructor
      · rintro ⟨h, rfl⟩
        exact ⟨i, ⟨h, rfl⟩, rfl⟩
      · rintro ⟨_, ⟨h, rfl⟩, rfl⟩
        exact ⟨h, rfl⟩
  | fairness fair =>
      constructor
      · rintro ⟨h, rfl⟩
        exact ⟨i, ⟨h, rfl⟩, rfl⟩
      · rintro ⟨_, ⟨h, rfl⟩, rfl⟩
        exact ⟨h, rfl⟩
  | operation choices current answer => exact delegate_eq_iff
  | boolean max answer => exact delegate_eq_iff
  | integer max answer => exact delegate_eq_iff
  | notice n =>
      constructor
      · rintro rfl
        exact ⟨_, rfl, rfl⟩
      · rintro ⟨_, rfl, rfl⟩
        rfl
  | send sender target event delivery =>
      simp only [Exchange.Moves, Strategy.onSend]
      obtain ⟨found, left⟩ := Strategy.onSend i sender target event
      constructor
      · intro h
        obtain ⟨rfl, rfl⟩ := Prod.mk.inj h
        exact ⟨left, rfl, rfl⟩
      · rintro ⟨i', h, rfl⟩
        obtain ⟨rfl, rfl⟩ := Prod.mk.inj h
        rfl
  | logged d =>
      constructor
      · rintro rfl
        exact ⟨i, rfl, rfl⟩
      · rintro ⟨_, rfl, rfl⟩
        rfl

/-- A recording strategy follows the dialogues of its inner strategy and records them. -/
theorem follows_recorded {l : List Exchange} {s' : Recorded σ} :
    Follows (⟨i, r, summary⟩ : Recorded σ) l s' ↔
      ∃ i', Follows i l i' ∧ s' = ⟨i', r.hearAll l, summary⟩ := by
  induction l generalizing i r with
  | nil =>
      constructor
      · rintro rfl
        exact ⟨i, rfl, rfl⟩
      · rintro ⟨_, rfl, rfl⟩
        rfl
  | cons e l ih =>
      simp only [follows_cons, moves_recorded, Recorder.hearAll_cons]
      constructor
      · rintro ⟨_, ⟨i₁, he, rfl⟩, hl⟩
        obtain ⟨i', hl', rfl⟩ := ih.mp hl
        exact ⟨i', ⟨i₁, he, hl'⟩, rfl⟩
      · rintro ⟨i', ⟨i₁, he, hl'⟩, rfl⟩
        exact ⟨_, ⟨i₁, he, rfl⟩, ih.mpr ⟨i', hl', rfl⟩⟩

instance : Records (Recorded σ) where
  recorder := Recorded.recorder
  hears h := by
    obtain ⟨i', -, rfl⟩ := moves_recorded.mp h
    rfl

end Recorded

end Interleave
