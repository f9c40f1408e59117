import Interleave.Proofs.Minimization.Parting
import Interleave.Proofs.Minimization.Repeating
import Mathlib.Data.List.Induction

/-!
# Runs that try a candidate

A session that is guided by the tree of a recorded run makes the steps of the tree up to the first
droppable send that its candidate withholds. There the two runs part (`EventTree.PartsAt`): the send
is withheld, and behind it only numbers of the candidate can be. If the tree has no such send, the
whole run is followed. A suffix that is not as fair as the recorded run may end the run before, at a
monitor that is too hot (`Machine.StopsShort`). In no case anything is withheld but what has been so
in the tree and what belongs to the candidate (`Program.Tries.withholds`).
-/

namespace Interleave

open Minimization

variable {settings : Settings}

/-! ## Trees that part -/

/-- The steps are the same up to links. -/
structure Step.Alike (s s' : Step) : Prop where
  index : s'.index = s.index
  kind : s'.kind = s.kind
  source : s'.source = s.source
  target : s'.target = s.target
  event : s'.event = s.event

theorem Step.Alike.refl (s : Step) : s.Alike s :=
  ⟨rfl, rfl, rfl, rfl, rfl⟩

/-- Steps that are alike stay so when links are added. -/
theorem Step.Alike.continues {s s' later later' : Step} (h : s.Alike s') (hs : s.Continues later)
    (hs' : s'.Continues later') : later.Alike later' where
  index := by rw [hs'.index, hs.index, h.index]
  kind := by rw [hs'.kind, hs.kind, h.kind]
  source := by rw [hs'.source, hs.source, h.source]
  target := by rw [hs'.target, hs.target, h.target]
  event := by rw [hs'.event, hs.event, h.event]

namespace EventTree

/-- The steps of the tree are those of the live tree up to the droppable send of the given number,
which is withheld in the live tree. The marks ahead of it are the same. -/
structure PartsAt (settings : Settings) (number : Nat) (t live : EventTree) : Prop where
  steps : ∀ (k : Nat) (step : Step), t.steps[k]? = some step →
    t.droppables settings k < number → ∃ step', live.steps[k]? = some step' ∧ step.Alike step'
  withheld : ∀ k, k < t.size → t.droppables settings k < number →
    live.isWithheld k =
      (t.isWithheld k || decide (t.droppables settings (k + 1) = number))

/-- A live tree that goes on behind a tree without a send of the number. -/
theorem Extends.partsAt {t live : EventTree} (h : t.Extends live) {number : Nat}
    (hnumber : Editor.countDroppable settings t < number) : t.PartsAt settings number live where
  steps k step hstep _ := by
    obtain ⟨step', hstep', hcontinues⟩ := h.steps k step hstep
    exact ⟨step', hstep', (Step.Alike.refl step).continues (.refl step) hcontinues⟩
  withheld k hk _ := by
    have hle : t.droppables settings (k + 1) ≤ t.droppables settings t.size := droppables_mono hk
    rw [droppables_size] at hle
    have hne : t.droppables settings (k + 1) ≠ number := by omega
    rw [h.withheld k hk, decide_eq_false hne, Bool.or_false]

end EventTree

/-- Two deliveries of the same send are recorded as steps that are alike. -/
theorem Recorder.Sound.alike_recordDelivery {r : Recorder} (h : r.Sound)
    (sender target : OperationId) (event : Event) (delivery delivery' : Delivery) :
    ∃ step step',
      (r.recordDelivery sender target event delivery).tree.steps[r.tree.size]? = some step ∧
      (r.recordDelivery sender target event delivery').tree.steps[r.tree.size]? = some step' ∧
      step.Alike step' := by
  have hstep : ∀ delivery, ∃ step,
      (r.recordDelivery sender target event delivery).tree.steps[r.tree.size]? = some step ∧
      step.index = r.tree.size ∧ step.kind = .send ∧ step.source = sender ∧ step.target = target ∧
      step.event = some event := by
    intro delivery
    obtain ⟨step, hstep, hindex, hkind, hsource, htarget⟩ :=
      (h.recordDelivery sender target event delivery).1.step
    obtain ⟨step', hstep', hevent⟩ := r.exists_step_recordDelivery sender target event delivery
    rw [hstep] at hstep'
    cases hstep'
    exact ⟨step, hstep, hindex, hkind, hsource, htarget, hevent⟩
  obtain ⟨step, hfound, hindex, hkind, hsource, htarget, hevent⟩ := hstep delivery
  obtain ⟨step', hfound', hindex', hkind', hsource', htarget', hevent'⟩ := hstep delivery'
  exact ⟨step, step', hfound, hfound', hindex'.trans hindex.symm, hkind'.trans hkind.symm,
    hsource'.trans hsource.symm, htarget'.trans htarget.symm, hevent'.trans hevent.symm⟩

/-- Runs that have recorded the same up to a send, and of which the second one withholds it, part at
the number of the send. -/
theorem Recorder.Sound.partsAt {r : Recorder} (h : r.Sound) {sender target : OperationId}
    {event : Event} {delivery : Delivery} {t live : EventTree}
    (htree : (r.recordDelivery sender target event delivery).tree.Extends t)
    (hlive : (r.recordDelivery sender target event .withhold).tree.Extends live)
    (hdroppable : settings.isDroppable event.name = true) :
    t.PartsAt settings (Editor.countDroppable settings r.tree + 1) live := by
  obtain ⟨hgrows, -⟩ := h.recordDelivery sender target event delivery
  obtain ⟨hgrows', hmark⟩ := h.recordDelivery sender target event .withhold
  have hcommon := hgrows.tree.trans htree
  have hcommon' := hgrows'.tree.trans hlive
  -- the send is the last step that has fewer droppable sends in front of it
  have hcount := h.countDroppable_recordDelivery settings sender target event delivery
  rw [hdroppable] at hcount
  have hnumber : t.droppables settings (r.tree.size + 1) =
      Editor.countDroppable settings r.tree + 1 := by
    rw [← hgrows.size, htree.droppables_eq (Nat.le_refl _), EventTree.droppables_size, hcount]
    rfl
  have hlast : ∀ k, t.droppables settings k < Editor.countDroppable settings r.tree + 1 →
      k ≤ r.tree.size := by
    intro k hk
    by_contra hlt
    have hmono : t.droppables settings (r.tree.size + 1) ≤ t.droppables settings k :=
      EventTree.droppables_mono (Nat.lt_of_not_le hlt)
    omega
  refine ⟨fun k step hstep hk => ?_, fun k _ hk => ?_⟩
  · rcases Nat.lt_or_eq_of_le (hlast k hk) with hlt | rfl
    · obtain ⟨step₁, hstep₁, hcontinues⟩ := hcommon.steps k _ (Array.getElem?_eq_getElem hlt)
      obtain ⟨step₂, hstep₂, hcontinues'⟩ := hcommon'.steps k _ (Array.getElem?_eq_getElem hlt)
      rw [hstep] at hstep₁
      cases hstep₁
      exact ⟨step₂, hstep₂, (Step.Alike.refl _).continues hcontinues hcontinues'⟩
    · obtain ⟨old, new, hold, hnew, halike⟩ := h.alike_recordDelivery sender target event delivery
        .withhold
      obtain ⟨step₁, hstep₁, hcontinues⟩ := htree.steps _ _ hold
      obtain ⟨step₂, hstep₂, hcontinues'⟩ := hlive.steps _ _ hnew
      rw [hstep] at hstep₁
      cases hstep₁
      exact ⟨step₂, hstep₂, halike.continues hcontinues hcontinues'⟩
  · rcases Nat.lt_or_eq_of_le (hlast k hk) with hlt | rfl
    · have hbefore : t.droppables settings (k + 1) ≤ Editor.countDroppable settings r.tree := by
        rw [hcommon.droppables_eq hlt, ← EventTree.droppables_size]
        exact EventTree.droppables_mono hlt
      have hne : t.droppables settings (k + 1) ≠ Editor.countDroppable settings r.tree + 1 := by
        omega
      rw [hcommon'.withheld k hlt, hcommon.withheld k hlt, decide_eq_false hne, Bool.or_false]
    · have hwithheld := hlive.withheld r.tree.size (by
        rw [hgrows'.size]
        exact Nat.lt_succ_self _)
      rw [hwithheld, hmark, hnumber, decide_eq_true rfl, decide_eq_true rfl, Bool.or_true]

/-! ## Guided runs -/

variable {σ τ β : Type} [Strategy σ] [Records σ]

/-- The session is to follow the tree of a recorded run, of which only sends of accepted numbers are
withheld, and to withhold the droppable sends of higher numbers that its candidate says. -/
structure Program.Tries (p : Program β) (c : Configuration) (i : Nat) (a : σ)
    (accepted : Nat → Prop) (r : Session τ) : Prop where
  recorded : p.WholeRun c i a
  guided : r.Guided (p.run (.new i c a)).recordedTree
  seen : r.editor.droppableSeen = 0
  bounds : r.Bounds (p.said (.new i c a))
  withheld : (p.run (.new i c a)).recordedTree.WithheldIn r.editor.settings accepted
  positive : ∀ number, r.editor.withholds number = true → 0 < number
  above : ∀ n number, accepted n → r.editor.withholds number = true → n < number

/-- What has been accepted or is withheld for the candidate of the session. -/
def Minimization.Session.Admits (r : Session τ) (accepted : Nat → Prop) (number : Nat) : Prop :=
  accepted number ∨ r.editor.withholds number = true

section

variable {p : Program β} {c : Configuration} {i : Nat} {a : σ} {accepted : Nat → Prop}
  {r : Session τ}
  {k : Nat} {b : OperationId} {l : List Exchange}

/-- The dialogue of a run that the session can follow is not cut off. -/
theorem Program.Tries.cutsAt (h : p.Tries c i a accepted r)
    (hcourse : p.Course (.new i c a) k b l) {l₁ l₂ : List Exchange}
    (hsplit : Machine.runSaid p k (.start p (.new i c a)) = l₁ ++ l₂) :
    ∀ l₃ l₄, l₁ = l₃ ++ .bound false :: l₄ → r.cutsAt (requests l₃) = false := by
  rintro l₃ l₄ rfl
  exact h.bounds l₃ false (l₄ ++ l₂ ++ l) (by rw [hcourse.said, hsplit]; simp)

theorem Program.Tries.indexed (h : p.Tries c i a accepted r)
    (hcourse : p.Course (.new i c a) k b l) : (p.run (.new i c a)).recordedTree.Indexed := by
  have hindexed := Recorder.sound_empty.indexed_hearAll Recorder.indexed_empty
    (Machine.runSaid p k (.start p (.new i c a)))
  intro index step hstep
  rw [(hcourse.same h.recorded).1] at hstep
  exact hindexed index step hstep

/-- What the run has recorded so far is the first part of its tree. -/
theorem Program.Course.extends_hearAll (h : p.WholeRun c i a)
    (hcourse : p.Course (.new i c a) k b l) {l₁ l₂ : List Exchange}
    (hsplit : Machine.runSaid p k (.start p (.new i c a)) = l₁ ++ l₂) :
    (Recorder.empty.hearAll l₁).tree.Extends (p.run (.new i c a)).recordedTree := by
  obtain ⟨hsteps, hwithheld⟩ := hcourse.same h
  have hextends := ((Recorder.sound_empty.hearAll l₁).1.hearAll l₂).2
  rw [← Recorder.hearAll_append, ← hsplit] at hextends
  exact hextends.trans (.of_eq hsteps hwithheld)

/-- In step with the tree the session has withheld nothing but what is withheld in the tree. -/
theorem Program.Tries.withheldIn (h : p.Tries c i a accepted r)
    (hcourse : p.Course (.new i c a) k b l) {l₁ l₂ : List Exchange}
    (hsplit : Machine.runSaid p k (.start p (.new i c a)) = l₁ ++ l₂) :
    (Recorder.empty.hearAll l₁).tree.WithheldIn r.editor.settings accepted :=
  h.withheld.restrict (hcourse.extends_hearAll h.recorded hsplit) fun _ hindex =>
    (Recorder.sound_empty.hearAll l₁).1.withheld_lt hindex

/-- What is spared before an exchange but not behind it ends with a droppable send. -/
theorem Program.Tries.exists_send (h : p.Tries c i a accepted r) {before : Recorder}
    (hsound : before.Sound) {e : Exchange}
    (hspares : r.Spares (Editor.countDroppable r.editor.settings before.tree))
    (hbreaks : ¬r.Spares (Editor.countDroppable r.editor.settings (before.hear e).tree)) :
    ∃ sender target event delivery, e = .send sender target event delivery ∧
      r.editor.settings.isDroppable event.name = true ∧
      r.editor.withholds (Editor.countDroppable r.editor.settings before.tree + 1) = true := by
  have hspared : ∀ number ≤ Editor.countDroppable r.editor.settings before.tree,
      r.editor.withholds number = false := fun number hle =>
    hspares number (by rw [h.seen, Nat.zero_add]; exact hle)
  obtain ⟨number, hle, hwithheld⟩ : ∃ number ≤ Editor.countDroppable r.editor.settings
      (before.hear e).tree, r.editor.withholds number = true := by
    by_contra hnone
    refine hbreaks fun number hle => ?_
    rw [h.seen, Nat.zero_add] at hle
    by_contra hwithheld
    exact hnone ⟨number, hle, by simpa using hwithheld⟩
  by_cases he : ∃ sender target event delivery, e = .send sender target event delivery
  · obtain ⟨sender, target, event, delivery, rfl⟩ := he
    have hcount : Editor.countDroppable r.editor.settings
        (before.hear (.send sender target event delivery)).tree = _ :=
      hsound.countDroppable_recordDelivery _ sender target event delivery
    cases hdroppable : r.editor.settings.isDroppable event.name with
    | false =>
        rw [hcount, hdroppable] at hle
        rw [hspared number hle] at hwithheld
        cases hwithheld
    | true =>
        rw [hcount, hdroppable] at hle
        refine ⟨sender, target, event, delivery, rfl, hdroppable, ?_⟩
        rcases Nat.le_or_eq_of_le_succ hle with hold | hnext
        · rw [hspared number hold] at hwithheld
          cases hwithheld
        · rw [← Nat.succ_eq_add_one, ← hnext]
          exact hwithheld
  · rw [hsound.countDroppable_hear fun sender target event delivery heq =>
      he ⟨sender, target, event, delivery, heq⟩] at hle
    rw [hspared number hle] at hwithheld
    cases hwithheld

/-- In step with the tree the session has passed all marks but those ahead of it. -/
theorem Program.Tries.clear (h : p.Tries c i a accepted r)
    (hcourse : p.Course (.new i c a) k b l) {turn : Turn} {s : Session τ}
    (haligned : Session.Aligned r (p.run (.new i c a)).recordedTree turn s)
    (hahead : ∀ index, s.steps + 1 ≤ index →
      (p.run (.new i c a)).recordedTree.isWithheld index = false) :
    s.editor.AtCursor Cursor.Clear := by
  obtain ⟨position, hcursor, hle, hchoices⟩ := haligned.cursor
  intro cursor hmem
  rw [hcursor] at hmem
  cases hmem
  refine ⟨h.indexed hcourse, fun index hindex => ?_⟩
  rcases Nat.lt_or_ge index (s.steps + 1) with hlt | hge
  · obtain ⟨step, hstep, hchoice⟩ := hchoices index hindex hlt
    exact h.withheld.isWithheld_of_choice hstep hchoice
  · exact hahead index hge

/-- Behind a point at which the session has parted from its guide only admitted sends are
withheld. -/
theorem Machine.withheldIn_runFor [Strategy τ] {m : Machine (Session τ) β}
    (hparted : m.scheduler.strategy.Parted accepted)
    (hunmarked : m.scheduler.strategy.editor.AtCursor Cursor.Unmarked) (p : Program β) (n : Nat) :
    (runFor p n m).recordedTree.WithheldIn m.scheduler.strategy.editor.settings accepted := by
  have hfollows := follows_run p n m
  have hend := (hparted.follows hunmarked hfollows).withheld
  rw [(Session.heard_of_follows hfollows).search.settings] at hend
  exact Recorder.withheldIn_recordEnd hend _

section FirstWithheld

variable {l₁ l₂ : List Exchange} {sender target : OperationId} {event : Event}
  {delivery : Delivery} {s : Session τ}
  (h : p.Tries c i a accepted r) (hcourse : p.Course (.new i c a) k b l)
  (hsplit : Machine.runSaid p k (.start p (.new i c a)) =
    l₁ ++ .send sender target event delivery :: l₂)
  (haligned : Session.Aligned r (p.run (.new i c a)).recordedTree
    (.granted sender ⟨.send, .inbox, target, none⟩) s)
  (hrecorder : s.recorder = Recorder.empty.hearAll l₁)
  (htree : (s.recorder.recordDelivery sender target event delivery).tree.Extends
    (p.run (.new i c a)).recordedTree)
  (hdroppable : r.editor.settings.isDroppable event.name = true)
  (hnumber : r.editor.withholds
    (Editor.countDroppable r.editor.settings s.recorder.tree + 1) = true)
include h hcourse hsplit haligned hrecorder htree hdroppable hnumber

/-- In front of the first droppable send that its candidate withholds the session has passed all
marks of the tree, that of the send included. -/
theorem Program.Tries.parted_of_send :
    s.Parted (r.Admits accepted) ∧ s.editor.AtCursor Cursor.Unmarked := by
  have hgrows := (haligned.sound.recordDelivery sender target event delivery).1
  have hsize : s.recorder.tree.size = s.steps := haligned.size
  -- the send has the next number, and all accepted ones are below it
  have hplace : (p.run (.new i c a)).recordedTree.droppables r.editor.settings (s.steps + 1) =
      Editor.countDroppable r.editor.settings s.recorder.tree + 1 := by
    rw [← hsize, ← hgrows.size, htree.droppables_eq (Nat.le_refl _), EventTree.droppables_size,
      haligned.sound.countDroppable_recordDelivery, hdroppable]
    rfl
  have hahead : ∀ index, s.steps ≤ index →
      (p.run (.new i c a)).recordedTree.isWithheld index = false := fun index hle =>
    h.withheld.isWithheld_of_le (fun n hn => by
      rw [hplace]
      exact h.above n _ hn hnumber) hle
  obtain ⟨position, hcursor, -, -⟩ := haligned.cursor
  obtain ⟨step, hstep, hindex, hactive, -⟩ := haligned.exists_guideSend htree
  refine ⟨⟨haligned.sound, ?_, fun number hwithheld => ?_, ?_, Or.inr ?_⟩, ?_⟩
  · rw [hrecorder, haligned.search.settings]
    exact (h.withheldIn hcourse hsplit).mono fun n hn => Or.inl hn
  · rw [haligned.search.withholds] at hwithheld
    exact Or.inr hwithheld
  · exact h.clear hcourse haligned fun index hle => hahead index (Nat.le_of_succ_le hle)
  · rw [haligned.seen, h.seen, Nat.zero_add, haligned.search.settings]
  · intro cursor hmem guideStep hsend
    rw [hcursor] at hmem
    cases hmem
    rw [hactive position] at hsend
    cases hsend
    rw [hindex]
    exact hahead s.steps (Nat.le_refl _)

/-- The run that goes on from there with the answer of the session parts from the tree. -/
theorem Program.Tries.parts_of_send [Strategy τ]
    (hspares : r.Spares (Editor.countDroppable r.editor.settings s.recorder.tree))
    {m : Machine (Session τ) β}
    (hanswer : m.scheduler.strategy = (Strategy.onSend s sender target event).2) (n : Nat) :
    (Machine.runFor p n m).recordedTree.WithheldIn r.editor.settings (r.Admits accepted) ∧
      ∀ number, r.editor.withholds number = true →
        (∀ n < number, r.editor.withholds n = false) →
        (p.run (.new i c a)).recordedTree.PartsAt r.editor.settings number
          (Machine.runFor p n m).recordedTree := by
  obtain ⟨hparted, hunmarked⟩ := h.parted_of_send hcourse hsplit haligned hrecorder htree
    hdroppable hnumber
  have hmoves : (Exchange.send sender target event .withhold).Moves s m.scheduler.strategy := by
    rw [hanswer]
    exact haligned.withholds h.seen htree hdroppable hnumber
  constructor
  · have hsettings : m.scheduler.strategy.editor.settings = r.editor.settings := by
      rw [(Session.heard_of_moves hmoves).search.settings, haligned.search.settings]
    rw [← hsettings]
    exact Machine.withheldIn_runFor (hparted.moves hmoves fun _ => hunmarked)
      (hparted.unmarked hmoves hunmarked) p n
  · intro number hwithheld hfirst
    have hsaved : Records.recorder m.scheduler.strategy =
        s.recorder.recordDelivery sender target event .withhold := Records.hears hmoves
    have hgrows := (haligned.sound.recordDelivery sender target event .withhold).1
    rw [← hsaved] at hgrows
    have hgrown := Machine.extends_recordedTree p n hgrows.sound
    rw [hsaved] at hgrown
    rw [hspares.eq_next h.seen hnumber hwithheld hfirst]
    exact haligned.sound.partsAt htree hgrown hdroppable

end FirstWithheld

variable [Strategy τ]

/-- The run stops at a monitor that is too hot. Its steps are the first ones of the tree, and it has
not come to the droppable send of the given number. -/
structure Machine.StopsShort (settings : Settings) (number : Nat) (t : EventTree)
    (m : Machine (Session τ) β) : Prop where
  overheated : m.scheduler.IsOverheated
  steps : m.recordedTree.Extends t
  before : Editor.countDroppable settings m.recordedTree < number

/-- A run of the session parts from the recorded run at the droppable send of the number. If the
suffix has another fairness than the recorded run was told, it may also stop short of the send. -/
def Program.PartsOrStops (p : Program β) (c : Configuration) (i : Nat) (a : σ) (r : Session τ)
    (number j : Nat) : Prop :=
  (p.run (.new i c a)).recordedTree.PartsAt r.editor.settings number
      (p.run (.new j c r)).recordedTree ∨
    (∃ told ≠ r.suffix.any Strategy.isFair, .fairness told ∈ p.said (.new i c a)) ∧
      (p.run (.new j c r)).StopsShort r.editor.settings number (p.run (.new i c a)).recordedTree

/-- A run that breaks off while the session is in step with the tree withholds nothing more than the
tree, and stops short of whatever the candidate withholds. -/
theorem Program.Tries.stopsShort (h : p.Tries c i a accepted r)
    (hcourse : p.Course (.new i c a) k b l) {k' : Nat} (hk' : k' < Machine.stepLimit)
    {l₁ l₂ l₀ : List Exchange}
    (hsplit : Machine.runSaid p k (.start p (.new i c a)) = l₁ ++ l₂)
    (hl₁ : l₁ = Machine.runSaid p k' (.start p (.new i c a)) ++ l₀)
    (hspares : r.Spares (Editor.countDroppable r.editor.settings (Recorder.empty.hearAll l₁).tree))
    {fair : Bool} {j : Nat}
    (hover : Machine.BreaksOff p fair (.start p (.new i c a)) (.start p (.new j c r)) k') :
    (p.run (.new j c r)).recordedTree.WithheldIn r.editor.settings (r.Admits accepted) ∧
      ∀ number, r.editor.withholds number = true →
        (p.run (.new j c r)).StopsShort r.editor.settings number
          (p.run (.new i c a)).recordedTree := by
  let recorded := Recorder.empty.hearAll (Machine.runSaid p k' (.start p (.new i c a)))
  obtain ⟨hhot, l₃, hrest, htold⟩ := hover.ends hk'
  -- the session has recorded what the run has said so far, and nothing more
  have htree : (p.run (.new j c r)).scheduler.strategy.recorder.tree = recorded.tree := by
    rw [(Session.heard_of_follows hrest).recorder, Recorder.tree_hearAll_of_told htold,
      (Session.heard_of_follows hover.follows).recorder, Recorder.hearAll_withFairness]
    exact congrArg (fun recorder => (Recorder.hearAll recorder _).tree) h.guided.recorder
  obtain ⟨hsteps, hwithheld⟩ := Recorder.same_recordEnd
    (p.run (.new j c r)).scheduler.strategy.recorder
    ((p.run (.new j c r)).scheduler.bug.map (·.kind))
  rw [htree] at hsteps hwithheld
  have hsame : (p.run (.new j c r)).recordedTree.Extends recorded.tree :=
    .of_eq hsteps.symm hwithheld.symm
  have hgrown : recorded.tree.Extends (Recorder.empty.hearAll l₁).tree := by
    rw [hl₁, Recorder.hearAll_append]
    exact ((Recorder.sound_empty.hearAll _).1.hearAll l₀).2
  rw [hl₁, List.append_assoc] at hsplit
  constructor
  · have hheld := h.withheldIn hcourse hsplit
    rw [show Recorder.tree (.hearAll .empty _) = _ from htree.symm] at hheld
    exact (Recorder.withheldIn_recordEnd hheld _).mono fun n hn => Or.inl hn
  · intro number hnumber
    refine ⟨hhot, hsame.trans (hcourse.extends_hearAll h.recorded hsplit), ?_⟩
    refine Nat.lt_of_le_of_lt ?_ (hspares.lt_of_withholds h.seen hnumber)
    exact (hsame.trans hgrown).countDroppable_le _

/-- A session that follows the run in all but fairness up to a send goes on from there with its own
answer, unless a monitor overheats before. -/
theorem Program.Course.exists_live (hcourse : p.Course (.new i c a) k b l) {l₁ l₂ : List Exchange}
    {sender target : OperationId} {event : Event} {delivery : Delivery}
    (hsplit : Machine.runSaid p k (.start p (.new i c a)) =
      l₁ ++ .send sender target event delivery :: l₂) {fair : Bool} {s : Session τ}
    (hfollows : Follows r (l₁.map (·.withFairness fair)) s) (j : Nat) :
    (∃ (n : Nat) (m : Machine (Session τ) β), p.run (.new j c r) = Machine.runFor p n m ∧
        m.scheduler.strategy = (Strategy.onSend s sender target event).2) ∨
      (∃ told ≠ fair, .fairness told ∈ p.said (.new i c a)) ∧
        ∃ k' < Machine.stepLimit, ∃ l₀, l₁ = Machine.runSaid p k' (.start p (.new i c a)) ++ l₀ ∧
          Machine.BreaksOff p fair (.start p (.new i c a)) (.start p (.new j c r)) k' := by
  obtain ⟨k', m, l₀, hk', hstep, rfl, l₀', hsaid⟩ := Machine.exists_step_of_runSaid hsplit
  have hlimit := hcourse.limit
  have hrunning : m.scheduler.running = true := by
    have hnext : (Machine.runFor p (k' + 1) _).scheduler.running = true :=
      Machine.running_of_le hcourse.running hk'
    rw [Machine.runFor_add, Machine.runFor_succ_of_step hstep] at hnext
    exact hnext
  rcases Machine.sends_or_breaksOff hstep hrunning hsaid hfollows j with ⟨n, hnext, hanswer⟩ |
    ⟨⟨told, hne, hmem⟩, k₁, hk₁, hbreaks⟩
  · exact Or.inl ⟨Machine.stepLimit - (k' + 1), n,
      Machine.runFor_of_step hnext (Nat.lt_of_lt_of_le hk' hlimit), hanswer⟩
  · refine Or.inr ⟨⟨told, hne, ?_⟩, k₁, by omega,
      Machine.runSaid p (k' - k₁) (Machine.runFor p k₁ (.start p (.new i c a))) ++ l₀, ?_, hbreaks⟩
    · rw [hcourse.said, ← Nat.add_sub_of_le (Nat.succ_le_of_lt hk'), Machine.runSaid_add]
      exact List.mem_append_left _ (List.mem_append_left _ hmem)
    · rw [← List.append_assoc, ← Machine.runSaid_add, Nat.add_sub_of_le hk₁]

/-- At the first droppable send that its candidate withholds the session parts from the run. -/
theorem Program.Tries.parts (h : p.Tries c i a accepted r)
    (hcourse : p.Course (.new i c a) k b l) {l₁ l₂ : List Exchange} {e : Exchange}
    (hsplit : Machine.runSaid p k (.start p (.new i c a)) = l₁ ++ e :: l₂)
    (hspares : r.Spares (Editor.countDroppable r.editor.settings (Recorder.empty.hearAll l₁).tree))
    (hbreaks : ¬r.Spares (Editor.countDroppable r.editor.settings
      (Recorder.empty.hearAll (l₁ ++ [e])).tree)) (j : Nat) :
    (p.run (.new j c r)).recordedTree.WithheldIn r.editor.settings (r.Admits accepted) ∧
      ∀ number, r.editor.withholds number = true →
        (∀ n < number, r.editor.withholds n = false) →
        p.PartsOrStops c i a r number j := by
  obtain ⟨turn, s, hfollows, haligned, hpath⟩ := hcourse.guided h.recorded h.guided hsplit
    (h.cutsAt hcourse hsplit) hspares
  have hsound := haligned.sound
  have hrecorder : s.recorder = Recorder.empty.hearAll l₁ := by
    rw [(Session.heard_of_follows hfollows).recorder, h.guided.recorder,
      Recorder.hearAll_withFairness]
  have hhear : Recorder.empty.hearAll (l₁ ++ [e]) = s.recorder.hear e := by
    rw [Recorder.hearAll_append, hrecorder]
    rfl
  have hspared := hspares
  rw [← hrecorder] at hspares
  rw [hhear] at hbreaks
  -- only a droppable send can use up what is spared, and its number is the next one
  obtain ⟨sender, target, event, delivery, rfl, hdroppable, hnumber⟩ :=
    h.exists_send hsound hspares hbreaks
  have htree : (s.recorder.recordDelivery sender target event delivery).tree.Extends
      (p.run (.new i c a)).recordedTree := by
    rw [← List.singleton_append, ← List.append_assoc] at hsplit
    have hextends := hcourse.extends_hearAll h.recorded hsplit
    rw [hhear] at hextends
    exact hextends
  obtain rfl : turn = .granted sender ⟨.send, .inbox, target, none⟩ := by
    cases hpath with
    | cons hgoes _ =>
        cases hgoes
        rfl
  -- the session makes this step of the run with its own answer, or the run has stopped before
  rcases hcourse.exists_live hsplit hfollows j with ⟨n, m, hrun, hanswer⟩ |
    ⟨hfair, k', hk', l₀, hl₁, hover⟩
  · obtain ⟨hheld, hparts⟩ := h.parts_of_send hcourse hsplit haligned hrecorder htree hdroppable
      hnumber hspares hanswer n
    unfold PartsOrStops
    rw [hrun]
    exact ⟨hheld, fun number hwithheld hfirst => Or.inl (hparts number hwithheld hfirst)⟩
  · obtain ⟨hheld, hshort⟩ := h.stopsShort hcourse hk' hsplit hl₁ hspared hover
    exact ⟨hheld, fun number hwithheld _ => Or.inr ⟨hfair, hshort number hwithheld⟩⟩

/-- At the end of the tree the session takes its last step, which may be a withheld send. It is
guided to the end of the tree before anything else is sent. -/
theorem Program.Tries.parted_of_end (h : p.Tries c i a accepted r)
    (hcourse : p.Course (.new i c a) k b l) {s : Session τ}
    {fair : Bool} (hfollows : Follows r
      ((Machine.runSaid p k (.start p (.new i c a))).map (·.withFairness fair)) s)
    (haligned : Session.Aligned r (p.run (.new i c a)).recordedTree (.holds b) s) :
    s.Parted (r.Admits accepted) := by
  have hheard := Session.heard_of_follows hfollows
  have hsize : (p.run (.new i c a)).recordedTree.size = s.steps + 1 := by
    rw [hcourse.size h.recorded, hheard.steps, h.guided.steps, Nat.zero_add, requests_withFairness]
  refine ⟨haligned.sound, ?_, fun number hwithheld => ?_, ?_, Or.inr ?_⟩
  · rw [hheard.recorder, h.guided.recorder, haligned.search.settings, Recorder.hearAll_withFairness]
    exact (h.withheldIn hcourse (List.append_nil _).symm).mono fun n hn => Or.inl hn
  · rw [haligned.search.withholds] at hwithheld
    exact Or.inr hwithheld
  · refine h.clear hcourse haligned fun index hle => ?_
    rw [Bool.eq_false_iff]
    intro hmark
    have hlt := h.withheld.lt_size (List.contains_iff_mem.mp hmark)
    omega
  · rw [haligned.seen, h.seen, Nat.zero_add, haligned.search.settings]

/-- A run in which the session has come to the end of the tree in the middle withholds nothing more
than what is admitted. -/
theorem Program.Tries.withheldIn_of_end (h : p.Tries c i a accepted r) {j : Nat}
    (hk : k ≤ Machine.stepLimit) {s : Session τ}
    (hmiddle : (Machine.runFor p k (.start p (.new j c r))).scheduler.strategy = s)
    (hparted : s.Parted (r.Admits accepted)) (hmode : s.mode = .guided)
    (hsize : s.recorder.tree.size = s.steps + 1) :
    (p.run (.new j c r)).recordedTree.WithheldIn s.editor.settings (r.Admits accepted) := by
  let start : Machine (Session τ) β := .start p (.new j c r)
  let rest := Machine.runSaid p (Machine.stepLimit - k) (Machine.runFor p k start)
  have hlimit : Machine.stepLimit = k + (Machine.stepLimit - k) := (Nat.add_sub_of_le hk).symm
  have hbefore : Follows r (Machine.runSaid p k start) s := by
    rw [← hmiddle]
    exact Machine.follows_run p k start
  have hbehind : Follows s rest (p.run (.new j c r)).scheduler.strategy := by
    have hfollows := Machine.follows_run p (Machine.stepLimit - k) (Machine.runFor p k start)
    rw [← Machine.runFor_add, ← hlimit, hmiddle] at hfollows
    exact hfollows
  have hwrap : start.nextOperation.toNat + Machine.stepLimit < UInt64.size := by
    show 1 + Machine.stepLimit < UInt64.size
    decide
  have hend := Session.heard_of_follows hbehind
  have htree : (p.run (.new j c r)).scheduler.strategy.recorder.tree.WithheldIn s.editor.settings
      (r.Admits accepted) := by
    obtain ⟨turn, l₁, l₂, hsaid, hpath, htold⟩ := Machine.exists_turns (p := p)
      (Machine.at_start p j c r) hwrap
    rw [hlimit, Machine.runSaid_add] at hsaid
    rcases List.append_eq_append_iff.mp hsaid with ⟨l₃, hl₁, hrest⟩ | ⟨l₃, hl₁, hl₂⟩
    · -- the operations take turns beyond the end of the tree, where one of them holds control
      rw [hl₁] at hpath
      obtain ⟨middle, hfirst, hsecond⟩ := hpath.split
      have hfirst : Turn.Path (.holds .harness) (Machine.runSaid p k start) middle := hfirst
      have hheard := Session.heard_of_follows hbefore
      have hrecorder : s.recorder = Recorder.empty.hearAll (Machine.runSaid p k start) := by
        rw [hheard.recorder, h.guided.recorder]
      have hsteps : s.steps = requests (Machine.runSaid p k start) := by
        rw [hheard.steps, h.guided.steps, Nat.zero_add]
      have hdone := size_hearAll_of_path hfirst Recorder.sound_empty
      have hroot : Recorder.empty.tree.size = 1 := rfl
      rw [← hrecorder, hsize, hsteps, hroot] at hdone
      have hturn : ∀ op next, middle ≠ .granted op next := by
        rintro op next rfl
        simp only [Turn.isDone, Bool.toNat_true, Bool.toNat_false] at hdone
        omega
      have hrest : rest = l₃ ++ l₂ := hrest
      rw [hrest] at hbehind
      obtain ⟨q, hturns, hlast⟩ := follows_append.mp hbehind
      have hheld := (hparted.path (Or.inr ⟨hmode, hturn⟩) hsecond hturns).withheld
      rw [(Session.heard_of_follows hturns).search.settings] at hheld
      rw [(Session.heard_of_follows hlast).recorder, Recorder.tree_hearAll_of_told htold]
      exact hheld
    · -- the run has come to its last words before
      rw [hl₂, told_append, List.append_eq_nil_iff] at htold
      rw [hend.recorder, Recorder.tree_hearAll_of_told htold.2]
      exact hparted.withheld
  exact Recorder.withheldIn_recordEnd htree _

/-- Whatever holds of no dialogue holds of it up to some exchange, or of all of it. -/
theorem exists_break {α : Type} {P : List α → Prop} (hnil : P []) (l : List α) :
    P l ∨ ∃ l₁ e l₂, l = l₁ ++ e :: l₂ ∧ P l₁ ∧ ¬P (l₁ ++ [e]) := by
  induction l using List.reverseRecOn with
  | nil => exact Or.inl hnil
  | append_singleton l e ih =>
      rcases ih with hall | ⟨l₁, e', l₂, rfl, hbefore, hbreaks⟩
      · by_cases hlast : P (l ++ [e])
        · exact Or.inl hlast
        · exact Or.inr ⟨l, e, [], rfl, hall, hlast⟩
      · exact Or.inr ⟨l₁, e', l₂ ++ [e], by simp, hbefore, hbreaks⟩

/-- Where the candidate withholds no droppable send of the tree, the whole run is followed, unless a
monitor overheats. -/
theorem Program.Tries.follows (h : p.Tries c i a accepted r)
    (hcourse : p.Course (.new i c a) k b l)
    (hspares : r.Spares (Editor.countDroppable r.editor.settings
      (Recorder.empty.hearAll (Machine.runSaid p k (.start p (.new i c a)))).tree)) (j : Nat) :
    (p.run (.new j c r)).recordedTree.WithheldIn r.editor.settings (r.Admits accepted) ∧
      ∀ number, r.editor.withholds number = true → p.PartsOrStops c i a r number j := by
  have hsplit : Machine.runSaid p k (.start p (.new i c a)) =
      Machine.runSaid p k (.start p (.new i c a)) ++ [] := (List.append_nil _).symm
  obtain ⟨turn, s, hfollows, haligned, hpath⟩ := hcourse.guided h.recorded h.guided hsplit
    (h.cutsAt hcourse hsplit) hspares
  cases hpath
  rcases Machine.matches_or_breaksOff hcourse.running hfollows j with ⟨schedule, hmatch⟩ |
    ⟨⟨told, hne, hmem⟩, k', hk', hover⟩
  · have hmiddle : (Machine.runFor p k (.start p (.new j c r))).scheduler.strategy = s :=
      congrArg (·.scheduler.strategy.inner) hmatch
    have hheld := h.withheldIn_of_end hcourse.limit hmiddle
      (h.parted_of_end hcourse hfollows haligned) haligned.mode haligned.size
    rw [haligned.search.settings] at hheld
    refine ⟨hheld, fun number hwithheld => Or.inl ?_⟩
    refine (hcourse.extends_run h.recorded ?_).partsAt ?_
    · rw [hmiddle, (Session.heard_of_follows hfollows).recorder, h.guided.recorder,
        Recorder.hearAll_withFairness]
    · obtain ⟨hsteps, hwithheld'⟩ := hcourse.same h.recorded
      refine Nat.lt_of_le_of_lt ?_ (hspares.lt_of_withholds h.seen hwithheld)
      exact (EventTree.Extends.of_eq hsteps.symm hwithheld'.symm).countDroppable_le _
  · have hl₁ : Machine.runSaid p k (.start p (.new i c a)) = _ :=
      (congrArg (Machine.runSaid p · _) (Nat.add_sub_of_le (Nat.le_of_lt hk')).symm).trans
        (Machine.runSaid_add p k' (k - k') _)
    obtain ⟨hheld, hshort⟩ := h.stopsShort hcourse (Nat.lt_of_lt_of_le hk' hcourse.limit) hsplit
      hl₁ hspares hover
    refine ⟨hheld, fun number hwithheld => Or.inr ⟨⟨told, hne, ?_⟩, hshort number hwithheld⟩⟩
    rw [hcourse.said]
    exact List.mem_append_left l hmem

/-- A session that tries a candidate makes the steps of the tree up to the first droppable send that
the candidate withholds, and withholds this one, unless a monitor overheats before. Nothing else is
withheld in its run but what has been so in the tree and what is droppable and belongs to the
candidate. -/
theorem Program.Tries.withholds (h : p.Tries c i a accepted r) (j : Nat) :
    (p.run (.new j c r)).recordedTree.WithheldIn r.editor.settings (r.Admits accepted) ∧
      ∀ number, r.editor.withholds number = true →
        (∀ n < number, r.editor.withholds n = false) → p.PartsOrStops c i a r number j := by
  obtain ⟨k, b, l, hcourse⟩ := h.recorded.exists_course
  let Spared := fun l => r.Spares (Editor.countDroppable r.editor.settings
    (Recorder.empty.hearAll l).tree)
  have hnone : Spared [] := by
    intro number hle
    rw [h.seen] at hle
    have hzero : number = 0 := Nat.le_zero.mp hle
    by_contra hwithheld
    have hpositive := h.positive number (by simpa using hwithheld)
    omega
  rcases exists_break hnone (Machine.runSaid p k (.start p (.new i c a))) with hspared |
    ⟨l₁, e, l₂, hsplit, hspared, hbreaks⟩
  · obtain ⟨hheld, hparts⟩ := h.follows hcourse hspared j
    exact ⟨hheld, fun number hwithheld _ => hparts number hwithheld⟩
  · exact h.parts hcourse hsplit hspared hbreaks j

end

end Interleave
