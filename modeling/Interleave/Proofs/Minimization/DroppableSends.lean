import Interleave.Minimization.Editor
import Interleave.Proofs.EventTree.Growth

/-!
# Droppable sends

The droppable sends of a tree are numbered from 1 in the order of its steps:
`EventTree.droppables` counts them up to a place. A later tree of the same run has the same numbers
(`EventTree.Extends.droppables_eq`), and a run that makes one more step has at most one number more.
`EventTree.WithheldIn` says that nothing else is withheld than droppable sends of accepted numbers.
-/

namespace Interleave

open Minimization

variable {settings : Settings}

/-- Whether the step is a send that may be withheld. -/
def Step.isDroppableSend (settings : Settings) (step : Step) : Bool :=
  step.kind = .send && step.eventName.any settings.isDroppable

theorem Step.Continues.isDroppableSend_eq {s later : Step} (h : s.Continues later) :
    later.isDroppableSend settings = s.isDroppableSend settings := by
  unfold Step.isDroppableSend Step.eventName
  rw [h.kind, h.event]

theorem Step.isDroppableSend_of_ne {step : Step} (h : step.kind ≠ .send) :
    step.isDroppableSend settings = false := by
  simp [Step.isDroppableSend, h]

theorem Step.kind_of_isDroppableSend {step : Step} (h : step.isDroppableSend settings = true) :
    step.kind = .send := by
  simp only [Step.isDroppableSend, Bool.and_eq_true, decide_eq_true_eq] at h
  exact h.1

/-- A send is droppable if its event is. -/
theorem Step.isDroppableSend_of_event {step : Step} {event : Event} (hkind : step.kind = .send)
    (hevent : step.event = some event) :
    step.isDroppableSend settings = settings.isDroppable event.name := by
  simp [Step.isDroppableSend, Step.eventName, hkind, hevent]

/-! ## Numbers of droppable sends -/

namespace EventTree

/-- The number of droppable sends among the first `k` steps. -/
def droppables (settings : Settings) (t : EventTree) (k : Nat) : Nat :=
  (t.steps.toList.take k).countP (·.isDroppableSend settings)

variable {t later : EventTree}

/-- All droppable sends of a tree are the candidates of its edits. -/
theorem droppables_size (settings : Settings) (t : EventTree) :
    t.droppables settings t.size = Editor.countDroppable settings t := by
  have hall : t.steps.toList.take t.size = t.steps.toList :=
    List.take_of_length_le (Nat.le_of_eq Array.length_toList)
  unfold droppables
  rw [hall]
  rfl

theorem droppables_succ {k : Nat} {step : Step} (hstep : t.steps[k]? = some step) :
    t.droppables settings (k + 1) =
      t.droppables settings k + (step.isDroppableSend settings).toNat := by
  unfold droppables
  rw [List.take_add_one, Array.getElem?_toList, hstep, List.countP_append]
  cases h : step.isDroppableSend settings <;> simp [h]

theorem droppables_mono {j k : Nat} (h : j ≤ k) :
    t.droppables settings j ≤ t.droppables settings k :=
  (List.take_sublist_take_left h).countP_le

/-- A tree that goes on after another one has the same sends up to there. -/
theorem Extends.droppables_eq (h : t.Extends later) {k : Nat} (hk : k ≤ t.size) :
    later.droppables settings k = t.droppables settings k := by
  induction k with
  | zero => simp [droppables]
  | succ k ih =>
      have hstep := Array.getElem?_eq_getElem hk
      obtain ⟨step, hlater, hcontinues⟩ := h.steps k _ hstep
      rw [droppables_succ hlater, droppables_succ hstep, ih (Nat.le_of_succ_le hk),
        hcontinues.isDroppableSend_eq]

theorem Extends.countDroppable_le (h : t.Extends later) (settings : Settings) :
    Editor.countDroppable settings t ≤ Editor.countDroppable settings later := by
  rw [← droppables_size, ← droppables_size, ← h.droppables_eq (Nat.le_refl _)]
  exact droppables_mono h.size

/-! ## Withheld sends -/

/-- Every withheld step is a droppable send, and its number is accepted. -/
def WithheldIn (settings : Settings) (accepted : Nat → Prop) (t : EventTree) : Prop :=
  ∀ k ∈ t.withheld, ∃ step, t.steps[k]? = some step ∧ step.isDroppableSend settings = true ∧
    accepted (t.droppables settings (k + 1))

variable {accepted : Nat → Prop}

theorem WithheldIn.mono {accepted' : Nat → Prop} (h : t.WithheldIn settings accepted)
    (himp : ∀ n, accepted n → accepted' n) : t.WithheldIn settings accepted' := by
  intro k hk
  obtain ⟨step, hstep, hdroppable, haccepted⟩ := h k hk
  exact ⟨step, hstep, hdroppable, himp _ haccepted⟩

theorem WithheldIn.lt_size (h : t.WithheldIn settings accepted) {k : Nat} (hk : k ∈ t.withheld) :
    k < t.size := by
  obtain ⟨step, hstep, -⟩ := h k hk
  exact (Array.getElem?_eq_some_iff.mp hstep).1

/-- What is withheld stays so in a tree that goes on, and nothing is added if the new steps are not
withheld. -/
theorem WithheldIn.extend (h : t.WithheldIn settings accepted) (hextends : t.Extends later)
    (hnew : ∀ k ∈ later.withheld, k < t.size) : later.WithheldIn settings accepted := by
  intro k hk
  have hlt := hnew k hk
  have hold : k ∈ t.withheld := by
    have hsame := hextends.withheld k hlt
    unfold isWithheld at hsame
    rwa [← List.contains_iff_mem, ← hsame, List.contains_iff_mem]
  obtain ⟨step, hstep, hdroppable, haccepted⟩ := h k hold
  obtain ⟨step', hstep', hcontinues⟩ := hextends.steps k step hstep
  refine ⟨step', hstep', hcontinues.isDroppableSend_eq.trans hdroppable, ?_⟩
  rw [hextends.droppables_eq hlt]
  exact haccepted

/-- What has been withheld up to a point of the run was so for the same reasons. -/
theorem WithheldIn.restrict (h : later.WithheldIn settings accepted) (hextends : t.Extends later)
    (hmarks : ∀ k ∈ t.withheld, k < t.size) : t.WithheldIn settings accepted := by
  intro k hk
  have hlt := hmarks k hk
  have hlater : k ∈ later.withheld := by
    have hsame := hextends.withheld k hlt
    unfold isWithheld at hsame
    rwa [← List.contains_iff_mem, hsame, List.contains_iff_mem]
  obtain ⟨step, hstep, hdroppable, haccepted⟩ := h k hlater
  obtain ⟨step', hstep', hcontinues⟩ := hextends.steps k _ (Array.getElem?_eq_getElem hlt)
  rw [hstep] at hstep'
  cases hstep'
  refine ⟨_, Array.getElem?_eq_getElem hlt, hcontinues.isDroppableSend_eq.symm.trans hdroppable, ?_⟩
  rw [← hextends.droppables_eq hlt]
  exact haccepted

/-- A choice is never withheld. -/
theorem WithheldIn.isWithheld_of_choice (h : t.WithheldIn settings accepted) {k : Nat} {step : Step}
    (hstep : t.steps[k]? = some step) (hchoice : step.kind.isChoice = true) :
    t.isWithheld k = false := by
  rw [Bool.eq_false_iff]
  intro hmark
  obtain ⟨step', hstep', hdroppable, -⟩ := h k (List.contains_iff_mem.mp hmark)
  rw [hstep] at hstep'
  cases hstep'
  rw [Step.kind_of_isDroppableSend hdroppable] at hchoice
  cases hchoice

/-- From a place on whose number is above all accepted ones nothing is withheld. -/
theorem WithheldIn.isWithheld_of_le (h : t.WithheldIn settings accepted) {k : Nat}
    (habove : ∀ n, accepted n → n < t.droppables settings (k + 1)) {j : Nat} (hle : k ≤ j) :
    t.isWithheld j = false := by
  rw [Bool.eq_false_iff]
  intro hmark
  obtain ⟨step, -, -, haccepted⟩ := h j (List.contains_iff_mem.mp hmark)
  have hlt := habove _ haccepted
  have hmono : t.droppables settings (k + 1) ≤ t.droppables settings (j + 1) :=
    droppables_mono (Nat.succ_le_succ hle)
  omega

end EventTree

/-! ## Recordings -/

namespace Recorder

variable {r r' : Recorder} {kind : StepKind} {source target : OperationId}

/-- One more step is one more droppable send or none. -/
theorem Grows.countDroppable (h : r.Grows kind source target r') (settings : Settings) :
    ∃ step, r'.tree.steps[r.tree.size]? = some step ∧ step.kind = kind ∧
      Editor.countDroppable settings r'.tree =
        Editor.countDroppable settings r.tree + (step.isDroppableSend settings).toNat := by
  obtain ⟨step, hstep, -, hkind, -, -⟩ := h.step
  refine ⟨step, hstep, hkind, ?_⟩
  rw [← EventTree.droppables_size, h.size, EventTree.droppables_succ hstep,
    h.tree.droppables_eq (Nat.le_refl _), EventTree.droppables_size]

/-- A step of another kind is not counted. -/
theorem Grows.countDroppable_of_ne (h : r.Grows kind source target r') (hkind : kind ≠ .send) :
    Editor.countDroppable settings r'.tree = Editor.countDroppable settings r.tree := by
  obtain ⟨step, -, hstep, hcount⟩ := h.countDroppable settings
  rw [hcount, Step.isDroppableSend_of_ne (hstep ▸ hkind)]
  rfl

/-- Only a send can be counted. -/
theorem Sound.countDroppable_hear (h : r.Sound) {e : Exchange}
    (he : ∀ sender target event delivery, e ≠ .send sender target event delivery) :
    Editor.countDroppable settings (r.hear e).tree = Editor.countDroppable settings r.tree := by
  cases hdeed : e.deed? with
  | none => rw [(hear_of_deed?_eq_none hdeed r).1]
  | some deed =>
      obtain ⟨kind, source, target⟩ := deed
      refine (h.grows_hear hdeed).countDroppable_of_ne ?_
      rintro rfl
      cases e with
      | notice n => exact Exchange.deed?_notice_ne_send hdeed
      | send sender target event delivery => exact he sender target event delivery rfl
      | _ => cases hdeed

/-- A recorded send has its event. -/
theorem exists_step_recordDelivery (r : Recorder) (sender target : OperationId) (event : Event)
    (delivery : Delivery) : ∃ step,
      (r.recordDelivery sender target event delivery).tree.steps[r.tree.size]? = some step ∧
        step.event = some event := by
  refine ⟨r.newStep .send sender target (some event), ?_, rfl⟩
  cases delivery with
  | deliver =>
      rw [recordDelivery_deliver]
      exact (getElem?_append r .send sender target (some event) _).trans (if_pos rfl)
  | withhold =>
      obtain ⟨sends, -, hdelivery⟩ := recordDelivery_withhold r sender target event
      rw [hdelivery]
      exact (getElem?_append r .send sender target (some event) _).trans (if_pos rfl)

/-- A recorded send is counted if its event is droppable. -/
theorem Sound.countDroppable_recordDelivery (h : r.Sound) (settings : Settings)
    (sender target : OperationId) (event : Event) (delivery : Delivery) :
    Editor.countDroppable settings (r.recordDelivery sender target event delivery).tree =
      Editor.countDroppable settings r.tree + (settings.isDroppable event.name).toNat := by
  obtain ⟨step, hstep, hkind, hcount⟩ :=
    (h.recordDelivery sender target event delivery).1.countDroppable settings
  obtain ⟨step', hstep', hevent⟩ := r.exists_step_recordDelivery sender target event delivery
  rw [hstep] at hstep'
  cases hstep'
  rw [hcount, Step.isDroppableSend_of_event hkind hevent]

/-- Only a withheld send adds to what is withheld. -/
theorem withheld_hear {e : Exchange}
    (he : ∀ sender target event, e ≠ .send sender target event .withhold) (r : Recorder) :
    (r.hear e).tree.withheld = r.tree.withheld := by
  cases e with
  | notice n =>
      cases n with
      | created creator created => rfl
      | started id initial =>
          simp only [hear, record, recordStart]
          split
          · rfl
          · split <;> rfl
      | received receiver event =>
          simp only [hear, record, recordReceive]
          split <;> rfl
      | chosen id choice => rfl
      | monitored monitor sender hot =>
          simp only [hear, record, recordMonitor]
          split
          · split <;> rfl
          · rfl
  | send sender target event delivery =>
      cases delivery with
      | deliver =>
          simp only [hear, recordDelivery, recordSend_eq]
          rfl
      | withhold => exact absurd rfl (he sender target event)
  | _ => rfl

variable {accepted : Nat → Prop}

theorem Sound.withheldIn_hear (h : r.Sound) (hin : r.tree.WithheldIn settings accepted)
    {e : Exchange} (he : ∀ sender target event, e ≠ .send sender target event .withhold) :
    (r.hear e).tree.WithheldIn settings accepted := by
  refine hin.extend (h.hear e).2 fun k hk => ?_
  rw [withheld_hear he] at hk
  exact hin.lt_size hk

/-- A droppable send may be withheld if its number is accepted. -/
theorem Sound.withheldIn_withhold (h : r.Sound) (hin : r.tree.WithheldIn settings accepted)
    {sender target : OperationId} {event : Event} (hdroppable : settings.isDroppable event.name)
    (haccepted : accepted (Editor.countDroppable settings r.tree + 1)) :
    (r.recordDelivery sender target event .withhold).tree.WithheldIn settings accepted := by
  let r' := r.recordDelivery sender target event .withhold
  have hgrows := (h.recordDelivery sender target event .withhold).1
  obtain ⟨sends, -, hdelivery⟩ := recordDelivery_withhold r sender target event
  have hmarks : r'.tree.withheld = insertAscending r.tree.size r.tree.withheld := by
    simp only [r', hdelivery]
    rfl
  intro k hk
  have hk : k ∈ r'.tree.withheld := hk
  rw [hmarks] at hk
  rcases mem_insertAscending.mp hk with rfl | hold
  · -- the send itself has the next number
    obtain ⟨step, hstep, hkind, -⟩ := hgrows.countDroppable settings
    obtain ⟨step', hstep', hevent⟩ := r.exists_step_recordDelivery sender target event .withhold
    rw [hstep] at hstep'
    cases hstep'
    refine ⟨step, hstep, (Step.isDroppableSend_of_event hkind hevent).trans hdroppable, ?_⟩
    have hcount := h.countDroppable_recordDelivery settings sender target event .withhold
    rw [hdroppable] at hcount
    rw [← hgrows.size, EventTree.droppables_size, hcount]
    exact haccepted
  · obtain ⟨step, hstep, hsend, hnumber⟩ := hin k hold
    obtain ⟨step', hstep', hcontinues⟩ := hgrows.tree.steps k step hstep
    refine ⟨step', hstep', hcontinues.isDroppableSend_eq.trans hsend, ?_⟩
    rw [hgrows.tree.droppables_eq (hin.lt_size hold)]
    exact hnumber

/-- The end of a run withholds nothing. -/
theorem withheldIn_recordEnd (h : r.tree.WithheldIn settings accepted) (bug : Option BugKind) :
    (r.recordEnd bug).tree.WithheldIn settings accepted := by
  obtain ⟨hsteps, hwithheld⟩ := r.same_recordEnd bug
  refine h.extend (.of_eq hsteps hwithheld) fun k hk => ?_
  rw [hwithheld] at hk
  exact h.lt_size hk

end Recorder

end Interleave
