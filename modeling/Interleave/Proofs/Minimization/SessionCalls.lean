import Interleave.Minimization.Session
import Interleave.Proofs.EventTree.Hearing
import Interleave.Proofs.Minimization.EditorCalls

/-!
# What calls make of a session

Whatever a session is asked, it records the dialogue, counts the requests and keeps its bound, the
search of its editor and the presence of a suffix (`Session.heard_of_follows`). Between two runs it
is planned anew (`Session.plan_cases`), unless there is nothing more to be run or its suffix fails
(`Session.Prepared`).
-/

namespace Interleave.Minimization.Session

variable {τ : Type}

/-- Whether a run of the session is cut off after the given number of requests. -/
def cutsAt (s : Session τ) (steps : Nat) : Bool :=
  0 < s.maxSteps && s.maxSteps < steps

/-! ## Planning -/

/-- The run that is planned replays the input schedule. -/
def Replays (s : Session τ) : Prop :=
  s.editor.phase = .scheduleReplay ∧ s.schedule.isSome

/-- What is planned: a replay of the input schedule, or a run with the guide of the phase. -/
theorem plan_cases (s : Session τ) :
    (∃ schedule, s.Replays ∧ s.schedule = some schedule ∧
        s.plan = { s with
          editor := s.editor.beginRun
          recorder := .empty
          steps := 0
          replay := some (.ofSchedule schedule false none)
          mode := .replay }) ∨
      ¬s.Replays ∧
        s.plan = { s with
          editor := s.editor.beginRun
          recorder := .empty
          steps := 0
          mode := if s.editor.phase.isGuided then .guided else .free } := by
  unfold plan
  dsimp only
  split
  · rename_i schedule hphase hschedule
    exact Or.inl ⟨schedule, ⟨hphase, hschedule ▸ rfl⟩, hschedule, rfl⟩
  · rename_i hnot
    refine Or.inr ⟨fun ⟨hphase, hsome⟩ => ?_, rfl⟩
    obtain ⟨schedule, hschedule⟩ := Option.isSome_iff_exists.mp hsome
    exact hnot schedule hphase hschedule

theorem plan_of_replays {s : Session τ} (h : s.Replays) {schedule : Schedule}
    (hschedule : s.schedule = some schedule) :
    s.plan = { s with
      editor := s.editor.beginRun
      recorder := .empty
      steps := 0
      replay := some (.ofSchedule schedule false none)
      mode := .replay } := by
  rcases s.plan_cases with ⟨schedule', -, hschedule', heq⟩ | ⟨hnot, -⟩
  · obtain rfl : schedule' = schedule := Option.some.inj (hschedule'.symm.trans hschedule)
    exact heq
  · exact absurd h hnot

theorem plan_of_not_replays {s : Session τ} (h : ¬s.Replays) :
    s.plan = { s with
      editor := s.editor.beginRun
      recorder := .empty
      steps := 0
      mode := if s.editor.phase.isGuided then .guided else .free } := by
  rcases s.plan_cases with ⟨-, hreplays, -⟩ | ⟨-, heq⟩
  · exact absurd hreplays h
  · exact heq

theorem editor_plan (s : Session τ) : s.plan.editor = s.editor.beginRun := by
  rcases s.plan_cases with ⟨_, -, -, heq⟩ | ⟨-, heq⟩ <;> rw [heq]

theorem schedule_plan (s : Session τ) : s.plan.schedule = s.schedule := by
  rcases s.plan_cases with ⟨_, -, -, heq⟩ | ⟨-, heq⟩ <;> rw [heq]

theorem sameSearch_plan (s : Session τ) : s.editor.SameSearch s.plan.editor := by
  rw [editor_plan]
  exact ⟨_, _, rfl⟩

/-- What preparing another run makes of a session, and the answer to it. -/
inductive Prepared [Strategy τ] (s : Session τ) : Except StrategyError Bool → Session τ → Prop where
  | completed : s.isCompleted = true → Prepared s (.ok false) s
  | unsuffixed : s.isCompleted = false → s.suffix = none → Prepared s (.ok true) s.plan
  | rejected {suffix suffix' : τ} {error : StrategyError} : s.isCompleted = false →
      s.suffix = some suffix → Strategy.prepare suffix = (.error error, suffix') →
      Prepared s (.error error) { s with suffix := some suffix' }
  | suffixed {suffix suffix' : τ} {more : Bool} : s.isCompleted = false →
      s.suffix = some suffix → Strategy.prepare suffix = (.ok more, suffix') →
      Prepared s (.ok true) { s with suffix := some suffix' }.plan

theorem prepared_prepare [Strategy τ] (s : Session τ) : s.Prepared s.prepare.1 s.prepare.2 := by
  unfold prepare
  cases hcompleted : s.isCompleted with
  | true => exact .completed hcompleted
  | false =>
      rw [if_neg Bool.false_ne_true]
      split
      · rename_i hsuffix
        exact .unsuffixed hcompleted hsuffix
      · rename_i suffix hsuffix
        split
        · rename_i error suffix' hprepare
          exact .rejected hcompleted hsuffix hprepare
        · rename_i more suffix' hprepare
          exact .suffixed hcompleted hsuffix hprepare

theorem Prepared.of_prepare [Strategy τ] {s s' : Session τ} {answer : Except StrategyError Bool}
    (h : s.prepare = (answer, s')) : s.Prepared answer s' := by
  have hprepared := s.prepared_prepare
  rwa [h] at hprepared

/-- A run that is prepared is planned, under a suffix if there was one. -/
theorem prepare_facts [Strategy τ] {s s' : Session τ} (h : s.prepare = (.ok true, s')) :
    ∃ suffix, suffix.isSome = s.suffix.isSome ∧ s' = { s with suffix }.plan := by
  cases Prepared.of_prepare h with
  | unsuffixed => exact ⟨s.suffix, rfl, rfl⟩
  | suffixed _ hsuffix => exact ⟨_, hsuffix ▸ rfl, rfl⟩

theorem sameSearch_prepare [Strategy τ] {s s' : Session τ} {answer : Except StrategyError Bool}
    (h : s.prepare = (answer, s')) : s.editor.SameSearch s'.editor := by
  cases Prepared.of_prepare h with
  | completed | rejected => exact .refl s.editor
  | unsuffixed => exact s.sameSearch_plan
  | suffixed => exact sameSearch_plan _

/-! ## Requests -/

/-- A request changes neither the recording nor the bound of a session, asks its editor for one
decision at most, keeps the suffix, and counts as one step. -/
structure Requested (s s' : Session τ) : Prop where
  recorder : s'.recorder = s.recorder
  maxSteps : s'.maxSteps = s.maxSteps
  steps : s'.steps = s.steps + 1
  asked : s.editor.Asked s'.editor
  suffix : s'.suffix.isSome = s.suffix.isSome

theorem editor_askSuffix {α : Type} (s : Session τ) (request : τ → Answer α × τ)
    (otherwise : Option α) : (s.askSuffix request otherwise).2.editor = s.editor := by
  unfold askSuffix
  split <;> rfl

theorem mode_askSuffix {α : Type} (s : Session τ) (request : τ → Answer α × τ)
    (otherwise : Option α) : (s.askSuffix request otherwise).2.mode = s.mode := by
  unfold askSuffix
  split <;> rfl

theorem requested_askSuffix {α : Type} {s : Session τ} (s₁ : Session τ) (h : s.Requested s₁)
    (request : τ → Answer α × τ) (otherwise : Option α) :
    s.Requested (s₁.askSuffix request otherwise).2 := by
  unfold askSuffix
  split
  · rename_i hsuffix
    refine ⟨h.recorder, h.maxSteps, h.steps, h.asked, ?_⟩
    rw [← h.suffix, hsuffix]
    rfl
  · exact h

theorem requested_goFree {α : Type} {s s₁ : Session τ} (h : s.Requested s₁)
    (request : τ → Answer α × τ) (otherwise : Option α) :
    s.Requested (s₁.goFree request otherwise).2 :=
  requested_askSuffix { s₁ with mode := .free }
    ⟨h.recorder, h.maxSteps, h.steps, h.asked, h.suffix⟩ request otherwise

theorem requested_askReplay {α : Type} {s s₁ : Session τ} (h : s.Requested s₁)
    (fromReplay : Replay τ → Answer α × Replay τ) (fromSuffix : τ → Answer α × τ)
    (otherwise : Option α) : s.Requested (s₁.askReplay fromReplay fromSuffix otherwise).2 := by
  unfold askReplay
  split
  · exact h
  · rename_i replay _
    have hreplay : s.Requested { s₁ with replay := some (fromReplay replay).2 } :=
      ⟨h.recorder, h.maxSteps, h.steps, h.asked, h.suffix⟩
    dsimp only
    split
    · exact requested_goFree hreplay fromSuffix otherwise
    · exact hreplay

theorem requested_countStep (s : Session τ) : s.Requested s.countStep :=
  ⟨rfl, rfl, rfl, .spared, rfl⟩

theorem Requested.withEditor {s s₁ : Session τ} (h : s.Requested s₁) {editor : Editor}
    (hasked : s.editor.Asked editor) : s.Requested { s₁ with editor } :=
  ⟨h.recorder, h.maxSteps, h.steps, hasked, h.suffix⟩

/-- What a session makes of a dialogue: it records it, keeps its bound, its search and its suffix,
and counts the requests. -/
structure Heard (s : Session τ) (l : List Exchange) (s' : Session τ) : Prop where
  recorder : s'.recorder = s.recorder.hearAll l
  maxSteps : s'.maxSteps = s.maxSteps
  steps : s'.steps = s.steps + requests l
  search : s.editor.SameSearch s'.editor
  suffix : s'.suffix.isSome = s.suffix.isSome

theorem Heard.append {s s' s'' : Session τ} {l l' : List Exchange} (h : s.Heard l s')
    (h' : s'.Heard l' s'') : s.Heard (l ++ l') s'' where
  recorder := by rw [h'.recorder, h.recorder, Recorder.hearAll_append]
  maxSteps := h'.maxSteps.trans h.maxSteps
  steps := by rw [h'.steps, h.steps, requests_append, Nat.add_assoc]
  search := h.search.trans h'.search
  suffix := h'.suffix.trans h.suffix

theorem Requested.heard {e : Exchange} {s s' : Session τ} (h : s.Requested s')
    (he : e.isRequest = true) : s.Heard [e] s' := by
  have hhear : s.recorder.hearAll [e] = s.recorder := by
    cases e <;> first | rfl | cases he
  refine ⟨h.recorder.trans hhear.symm, h.maxSteps, ?_, h.asked.sameSearch, h.suffix⟩
  rw [requests_cons, he]
  exact h.steps

/-- The session answers the questions about the bound in a dialogue in the same way. -/
def Bounds (s : Session τ) (l : List Exchange) : Prop :=
  ∀ l₁ reached l₂, l = l₁ ++ .bound reached :: l₂ → s.cutsAt (requests l₁) = reached

theorem bounds_of_le {s : Session τ} {l : List Exchange} (hnot : .bound true ∉ l)
    (hcut : ∀ steps ≤ requests l, s.cutsAt steps = false) : s.Bounds l := by
  intro l₁ reached l₂ hl
  cases reached with
  | true => exact absurd (by rw [hl]; simp) hnot
  | false =>
      refine hcut _ ?_
      rw [hl, requests_append]
      exact Nat.le_add_right _ _

variable [Strategy τ]

theorem requested_nextOperation (s : Session τ) (choices : List Snapshot)
    (current : OperationId) : s.Requested (s.nextOperation choices current).2 := by
  have h := requested_countStep s
  have hasked : s.editor.Asked (s.countStep.editor.nextOperation choices).2 := .operation choices
  unfold nextOperation
  dsimp only
  split
  · exact requested_askReplay h _ _ _
  · split <;> rename_i heditor <;> rw [heditor] at hasked
    · exact h.withEditor hasked
    · exact requested_goFree (h.withEditor hasked) _ _
  · exact requested_goFree h _ _

theorem requested_nextBoolean (s : Session τ) (max : UInt32) :
    s.Requested (s.nextBoolean max).2 := by
  have h := requested_countStep s
  have hasked : s.editor.Asked s.countStep.editor.nextBoolean.2 := s.editor.asked_nextBoolean
  unfold nextBoolean
  dsimp only
  split
  · exact requested_askReplay h _ _ _
  · split <;> rename_i heditor <;> rw [heditor] at hasked
    · exact h.withEditor hasked
    · exact requested_askSuffix _ (h.withEditor hasked) _ _
  · exact requested_goFree h _ _

theorem requested_nextInteger (s : Session τ) (max : UInt32) :
    s.Requested (s.nextInteger max).2 := by
  have h := requested_countStep s
  have hasked : s.editor.Asked (s.countStep.editor.nextInteger max).2 :=
    s.editor.asked_nextInteger max
  unfold nextInteger
  dsimp only
  split
  · exact requested_askReplay h _ _ _
  · split <;> rename_i heditor <;> rw [heditor] at hasked
    · exact h.withEditor hasked
    · exact h.withEditor hasked
    · exact requested_askSuffix _ (h.withEditor hasked) _ _
  · exact requested_goFree h _ _

/-- Whatever is asked for, the session takes it as a request. -/
theorem requested_of_moves {e : Exchange} {s s' : Session τ} (h : e.Moves s s')
    (he : e.isRequest = true) : s.Requested s' := by
  cases e with
  | operation choices current answer =>
      have hrequested := requested_nextOperation s choices current
      rwa [show s.nextOperation choices current = (answer, s') from h] at hrequested
  | boolean max answer =>
      have hrequested := requested_nextBoolean s max
      rwa [show s.nextBoolean max = (answer, s') from h] at hrequested
  | integer max answer =>
      have hrequested := requested_nextInteger s max
      rwa [show s.nextInteger max = (answer, s') from h] at hrequested
  | _ => cases he

/-- What reaches the editor of a session: one decision of a request at most, or a send. -/
theorem editor_of_moves {e : Exchange} {s s' : Session τ} (h : e.Moves s s') :
    s.editor.Asked s'.editor ∨ ∃ sender target event delivery,
      e = .send sender target event delivery ∧ s'.editor = (s.editor.onSend event).2 := by
  cases hrequest : e.isRequest with
  | true => exact Or.inl (requested_of_moves h hrequest).asked
  | false =>
      cases e with
      | send sender target event delivery =>
          have h : s.onSend sender target event = (delivery, s') := h
          unfold onSend at h
          obtain ⟨-, rfl⟩ := Prod.mk.inj h
          exact Or.inr ⟨sender, target, event, delivery, rfl, rfl⟩
      | bound reached =>
          rw [h.2]
          exact Or.inl .spared
      | fairness fair =>
          rw [h.2]
          exact Or.inl .spared
      | notice n =>
          rw [← show { s with recorder := s.recorder.record n } = s' from h]
          exact Or.inl .spared
      | logged d =>
          rw [show s' = s from h]
          exact Or.inl .spared
      | _ => cases hrequest

theorem heard_of_moves {e : Exchange} {s s' : Session τ} (h : e.Moves s s') :
    s.Heard [e] s' := by
  cases e with
  | bound reached =>
      rw [h.2]
      exact ⟨rfl, rfl, rfl, .refl s.editor, rfl⟩
  | fairness fair =>
      rw [h.2]
      exact ⟨rfl, rfl, rfl, .refl s.editor, rfl⟩
  | operation choices current answer => exact (requested_of_moves h rfl).heard rfl
  | boolean max answer => exact (requested_of_moves h rfl).heard rfl
  | integer max answer => exact (requested_of_moves h rfl).heard rfl
  | notice n =>
      rw [← show { s with recorder := s.recorder.record n } = s' from h]
      exact ⟨rfl, rfl, rfl, .refl s.editor, rfl⟩
  | send sender target event delivery =>
      have h : s.onSend sender target event = (delivery, s') := h
      have hsearch := s.editor.sameSearch_onSend event
      unfold onSend at h
      obtain ⟨rfl, rfl⟩ := Prod.mk.inj h
      exact ⟨rfl, rfl, rfl, hsearch, rfl⟩
  | logged d =>
      rw [show s' = s from h]
      exact ⟨rfl, rfl, rfl, .refl s.editor, rfl⟩

instance : Records (Session τ) where
  recorder := Session.recorder
  hears h := (heard_of_moves h).recorder

theorem heard_of_follows {l : List Exchange} {s s' : Session τ} (h : Follows s l s') :
    s.Heard l s' := by
  induction l generalizing s with
  | nil =>
      rw [follows_nil.mp h]
      exact ⟨rfl, rfl, rfl, .refl s.editor, rfl⟩
  | cons e l ih =>
      obtain ⟨middle, he, hl⟩ := h
      exact (heard_of_moves he).append (ih hl)

/-- The fairness of a session whose suffix can only have the given one. -/
theorem isFair_eq {fair : Bool} (hfair : ∀ t : τ, Strategy.isFair t = fair) (s : Session τ) :
    Strategy.isFair s = (s.suffix.isSome && fair) := by
  show s.suffix.any Strategy.isFair = _
  cases s.suffix with
  | none => rfl
  | some t => simp [hfair]

theorem isSome_of_reaches {s s' : Session τ} (h : Strategy.Reaches s s') :
    s'.suffix.isSome = s.suffix.isSome := by
  induction h with
  | refl => rfl
  | step _ hmoves ih => rw [← ih, (heard_of_moves hmoves).suffix]

/-- A session answers as another one with the same bound has answered from the start of its run. -/
theorem bounds_of_follows {l : List Exchange} {s first last : Session τ}
    (hfollows : Follows first l last) (hsteps : first.steps = 0)
    (hmax : s.maxSteps = first.maxSteps) : s.Bounds l := by
  rintro l₁ reached l₂ rfl
  obtain ⟨middle, hbefore, _, ⟨hreached, -⟩, -⟩ := follows_append.mp hfollows
  have hheard := heard_of_follows hbefore
  have hrequests : middle.steps = requests l₁ := by
    rw [hheard.steps, hsteps, Nat.zero_add]
  rw [← hreached, ← hrequests]
  show _ = (0 < middle.maxSteps && middle.maxSteps < middle.steps)
  rw [hheard.maxSteps, ← hmax]
  rfl

end Interleave.Minimization.Session
