import Interleave.Proofs.Minimization.DroppableSends
import Interleave.Proofs.Minimization.GuideSteps
import Interleave.Proofs.Minimization.SessionCalls
import Interleave.Proofs.Program.Turns

/-!
# Retracing a tree

A session that replays a tree keeps in step with the run that the tree was recorded in: as long as
the operations take turns, every answer it gives is the one that the dialogue of that run has
(`Session.Aligned.follows`). The cursor does not know the dialogue. What carries the argument is
that the tree foretells it (`Foretells`): behind the steps recorded so far stands the step that the
turn is about, and a choice is linked from the latest step of the operation that makes it.
-/

namespace Interleave

namespace Minimization

/-! ## A cursor on a guide without deletions -/

namespace Cursor

variable {policy : MatchPolicy} {choices : List Snapshot} {guide : EventTree}

/-- The place in a guide of which nothing is deleted or cut off. -/
def onGuide (guide : EventTree) (position : Nat) (active : Option Nat) : Cursor :=
  ⟨guide, position, active, [], none⟩

theorem nextStep?_onGuide (position : Nat) (active : Option Nat) :
    (onGuide guide position active).nextStep? = guide.steps[position]? := rfl

theorem nextOperation_end {position : Nat} {active : Option Nat} (h : guide.size ≤ position) :
    (onGuide guide position active).nextOperation policy choices =
      (none, onGuide guide position none) := by
  have hnone : (onGuide guide position active).nextStep? = none := by
    rw [nextStep?_onGuide]
    exact Array.getElem?_eq_none h
  exact nextOperation_of_end hnone

theorem nextOperation_choice {position : Nat} {active : Option Nat} {step : Step}
    (hstep : guide.steps[position]? = some step) (hchoice : step.kind.isChoice = true) :
    (onGuide guide position active).nextOperation policy choices =
      (onGuide guide (position + 1) active).nextOperation policy choices :=
  nextOperation_of_choice ((nextStep?_onGuide position active).trans hstep) rfl hchoice

/-- With distinct operations, the one that takes a step is the only one found for it. -/
theorem find?_of_distinct {op : Snapshot} (hdistinct : (choices.map Snapshot.id).Nodup)
    (hmem : op ∈ choices) (henabled : op.enabled = true) :
    choices.find? (fun other => other.enabled && other.id = op.id) = some op := by
  induction choices with
  | nil => cases hmem
  | cons other rest ih =>
      rw [List.map_cons, List.nodup_cons] at hdistinct
      rcases List.mem_cons.mp hmem with rfl | hrest
      · simp [henabled]
      · have hne : other.id ≠ op.id := by
          intro heq
          exact hdistinct.1 (List.mem_map.mpr ⟨op, hrest, heq.symm⟩)
        rw [List.find?_cons_of_neg (by simp [hne])]
        exact ih hdistinct.2 hrest

theorem nextOperation_take {position : Nat} {active : Option Nat} {step : Step} {op : Snapshot}
    (hstep : guide.steps[position]? = some step) (hkind : step.kind.isChoice = false)
    (hdistinct : (choices.map Snapshot.id).Nodup) (hmem : op ∈ choices)
    (henabled : op.enabled = true) (hsource : step.source = op.id)
    (haccepts : policy.accepts step op = true) :
    (onGuide guide position active).nextOperation policy choices =
      (some op.id, onGuide guide (position + 1) (some position)) := by
  have hfind : choices.find? (fun other => other.enabled && other.id = step.source) = some op := by
    rw [hsource]
    exact find?_of_distinct hdistinct hmem henabled
  rw [nextOperation_of_found ((nextStep?_onGuide position active).trans hstep) rfl hkind hfind,
    if_pos haccepts]
  rfl

/-- Choices in front of the next step are passed over. -/
theorem nextOperation_passing {position next : Nat} {active : Option Nat}
    (hle : position ≤ next)
    (hchoices : ∀ k, position ≤ k → k < next →
      ∃ step, guide.steps[k]? = some step ∧ step.kind.isChoice = true) :
    (onGuide guide position active).nextOperation policy choices =
      (onGuide guide next active).nextOperation policy choices := by
  induction hn : next - position generalizing position with
  | zero =>
      have heq : position = next := by omega
      rw [heq]
  | succ n ih =>
      obtain ⟨step, hstep, hchoice⟩ := hchoices position (Nat.le_refl _) (by omega)
      rw [nextOperation_choice hstep hchoice]
      exact ih (by omega) (fun k hk => hchoices k (by omega)) (by omega)

/-- A choice that is linked from the active step is found. -/
theorem nextChoice_onGuide {position active next : Nat} {step linked : Step} {boolean : Bool}
    (hactive : guide.steps[active]? = some linked) (hlink : linked.directChild = some next)
    (hstep : guide.steps[next]? = some step) (hkind : isChoiceOf boolean step.kind = true) :
    (onGuide guide position (some active)).nextChoice boolean =
      (some step.kind, onGuide guide position (some next)) := by
  have htaken : (onGuide guide position (some active)).activeStep? = some linked := hactive
  exact nextChoice_of_link htaken hlink hstep hkind rfl

end Cursor

/-! ## What a tree foretells -/

/-- Behind the recorded steps the guide has the step that the turn is about. -/
def Foretells (guide : EventTree) (r : Recorder) : Turn → Prop
  | .holds _ => True
  | .granted a next => ∃ step, guide.steps[r.tree.size]? = some step ∧ step.source = a ∧
      step.kind.isChoice = false ∧ MatchPolicy.fits step next = true
  | .decided a choice =>
      (∃ step, guide.steps[r.tree.size]? = some step ∧ step.kind = .ofChoice choice) ∧
        ∀ k, r.latestOf a = some k →
          ∃ step, guide.steps[k]? = some step ∧ step.directChild = some r.tree.size

/-- The step that is recorded next is in the guide. -/
theorem exists_step_of_grows {guide : EventTree} {r r' : Recorder} {kind : StepKind}
    {source target : OperationId} (hgrows : r.Grows kind source target r')
    (hextends : r'.tree.Extends guide) :
    ∃ step, guide.steps[r.tree.size]? = some step ∧ step.index = r.tree.size ∧
      step.kind = kind ∧ step.source = source ∧ step.target = target := by
  obtain ⟨step, hstep, hindex, hkind, hsource, htarget⟩ := hgrows.step
  obtain ⟨step', hstep', hcontinues⟩ := hextends.steps _ _ hstep
  exact ⟨step', hstep', hcontinues.index.trans hindex, hcontinues.kind.trans hkind,
    hcontinues.source.trans hsource, hcontinues.target.trans htarget⟩

/-- A tree foretells the turns of the dialogue that it has been recorded from. -/
theorem foretells_of_path {guide : EventTree} {turn : Turn} {l : List Exchange}
    {last : OperationId} (hpath : Turn.Path turn l (.holds last)) {r : Recorder}
    (hsound : r.Sound) (hextends : (r.hearAll l).tree.Extends guide) :
    Foretells guide r turn := by
  generalize hend : Turn.holds last = finally' at hpath
  -- an exchange either makes the step that the turn is about or leaves the turn to those behind it
  induction hpath generalizing r with
  | nil =>
      subst hend
      trivial
  | @cons first second last e l hgoes hpath ih =>
      obtain ⟨hsound', -⟩ := hsound.hear e
      have hrest : (r.hear e).tree.Extends guide := (hsound'.hearAll l).2.trans hextends
      have hlater := ih hsound' hextends hend
      cases hgoes with
      | unbound => exact hlater
      | fairness => exact hlater
      | logged => exact hlater
      | grants hdistinct hmem henabled => trivial
      | flips => trivial
      | rolls hrange => trivial
      | monitored => trivial
      | @chosen op choice =>
          have hgrows := hsound.grows_hear (e := .notice (.chosen op choice)) rfl
          obtain ⟨step, hstep, -, hkind, -, -⟩ := exists_step_of_grows hgrows hrest
          refine ⟨⟨step, hstep, hkind⟩, fun k hk => ?_⟩
          obtain ⟨linked, hlinked, hdirect⟩ := hgrows.linked k hk
          obtain ⟨linked', hlinked', hcontinues⟩ := hrest.steps _ _ hlinked
          exact ⟨linked', hlinked', hcontinues.direct _ hdirect⟩
      | @created op child =>
          have hgrows := hsound.grows_hear (e := .notice (.created op child)) rfl
          obtain ⟨step, hstep, -, hkind, hsource, htarget⟩ := exists_step_of_grows hgrows hrest
          exact ⟨step, hstep, hsource, by simp [hkind, StepKind.isChoice],
            by simp [MatchPolicy.fits, hkind, htarget]⟩
      | @started op hchild =>
          have hgrows := hsound.grows_hear (e := .notice (.started op none)) (if_neg hchild)
          obtain ⟨step, hstep, -, hkind, hsource, -⟩ := exists_step_of_grows hgrows hrest
          exact ⟨step, hstep, hsource, by simp [hkind, StepKind.isChoice],
            by simp [MatchPolicy.fits, hkind, Declared.start]⟩
      | @received op event =>
          have hgrows := hsound.grows_hear (e := .notice (.received op event)) rfl
          obtain ⟨step, hstep, -, hkind, hsource, -⟩ := exists_step_of_grows hgrows hrest
          exact ⟨step, hstep, hsource, by simp [hkind, StepKind.isChoice],
            by simp [MatchPolicy.fits, hkind]⟩
      | @sent op target event delivery =>
          have hgrows := hsound.grows_hear (e := .send op target event delivery) rfl
          obtain ⟨step, hstep, -, hkind, hsource, htarget⟩ := exists_step_of_grows hgrows hrest
          exact ⟨step, hstep, hsource, by simp [hkind, StepKind.isChoice],
            by simp [MatchPolicy.fits, hkind, htarget]⟩

/-- A dialogue makes one step for each request. -/
theorem size_hearAll_of_path {turn turn' : Turn} {l : List Exchange}
    (hpath : Turn.Path turn l turn') {r : Recorder} (hsound : r.Sound) :
    (r.hearAll l).tree.size + turn.isDone.toNat =
      r.tree.size + requests l + turn'.isDone.toNat := by
  induction hpath generalizing r with
  | nil => rfl
  | @cons first second last e l hgoes _ ih =>
      -- the step of a request is made by a later exchange, until which the turn is not done
      have hrest := ih (hsound.hear e).1
      have hfirst : (r.hear e).tree.size + first.isDone.toNat =
          r.tree.size + e.isRequest.toNat + second.isDone.toNat := by
        have hgrows : ∀ {kind : StepKind} {source target : OperationId},
            e.deed? = some (kind, source, target) → (r.hear e).tree.size = r.tree.size + 1 :=
          fun hdeed => (hsound.grows_hear hdeed).size
        have hstays : e.deed? = none → (r.hear e).tree.size = r.tree.size :=
          fun hdeed => congrArg EventTree.size (Recorder.hear_of_deed?_eq_none hdeed r).1
        cases hgoes with
        | started hchild => rw [hgrows (if_neg hchild)]; rfl
        | chosen => rw [hgrows rfl]; rfl
        | created => rw [hgrows rfl]; rfl
        | received => rw [hgrows rfl]; rfl
        | sent => rw [hgrows rfl]; rfl
        | _ => rw [hstays rfl]; rfl
      rw [Recorder.hearAll_cons, requests_cons]
      omega

/-! ## Sessions that follow a guide -/

/-- While a tree is replayed, no further send is withheld. -/
theorem Editor.withholds_of_treeReplay {e : Editor} {next : Stage}
    (hphase : e.phase = .treeReplay next) (number : Nat) : e.withholds number = false := by
  unfold withholds
  rw [hphase]

/-- A send that the guide has is counted. It is withheld if it is so in the guide or droppable and
of a number that the candidate withholds. -/
theorem Editor.onSend_of_guideSend {e : Editor} {cursor : Cursor} {step : Step}
    (hcursor : e.cursor = some cursor) (hsend : guideSend? cursor = some step) (event : Event) :
    let droppable := e.settings.isDroppable event.name
    let seen := e.droppableSeen + droppable.toNat
    e.onSend event =
      if cursor.guide.isWithheld step.index || (droppable && e.withholds seen) then
        (.withhold, { e with
          droppableSeen := seen, cursor := some (cursor.deleteLink step.createdChild) })
      else (.deliver, { e with droppableSeen := seen }) := by
  intro droppable seen
  unfold onSend
  rw [hcursor]
  simp only [hsend, Option.isNone_some, Bool.and_false, Bool.false_eq_true, if_false,
    Option.any_some, Option.bind_some]
  rfl

namespace Session

variable {τ : Type}

/-- The session is at the start of a run that the given tree guides to its end, under a policy that
lets its steps be taken. -/
structure Guided (s : Session τ) (guide : EventTree) : Prop where
  lenient : s.editor.policy.Lenient
  mode : s.mode = .guided
  cursor : s.editor.cursor = some (.start guide none)
  recorder : s.recorder = .empty
  steps : s.steps = 0

/-- The session is at the start of a run that follows the given tree to its end, under a policy that
lets its steps be taken. -/
structure Retraces (s : Session τ) (guide : EventTree) : Prop where
  lenient : s.editor.policy.Lenient
  mode : s.mode = .guided
  phase : ∃ next, s.editor.phase = .treeReplay next
  cursor : s.editor.cursor = some (.start guide none)
  recorder : s.recorder = .empty
  steps : s.steps = 0

theorem Retraces.guided {s : Session τ} {guide : EventTree} (h : s.Retraces guide) :
    s.Guided guide :=
  ⟨h.lenient, h.mode, h.cursor, h.recorder, h.steps⟩

/-- The candidate of the session, if it has one, withholds none of the next `n` droppable sends. -/
def Spares (s : Session τ) (n : Nat) : Prop :=
  ∀ number ≤ s.editor.droppableSeen + n, s.editor.withholds number = false

theorem Spares.mono {s : Session τ} {n m : Nat} (h : s.Spares n) (hle : m ≤ n) : s.Spares m :=
  fun number hnumber => h number (Nat.le_trans hnumber (Nat.add_le_add_left hle _))

/-- A number that is withheld lies behind those that are spared. -/
theorem Spares.lt_of_withholds {s : Session τ} {n number : Nat} (h : s.Spares n)
    (hseen : s.editor.droppableSeen = 0) (hwithheld : s.editor.withholds number = true) :
    n < number := by
  refine Nat.lt_of_not_le fun hle => ?_
  rw [h number (by rw [hseen]; omega)] at hwithheld
  cases hwithheld

/-- The first number that is withheld is the one behind those that are spared, if it is withheld. -/
theorem Spares.eq_next {s : Session τ} {n number : Nat} (hspares : s.Spares n)
    (hseen : s.editor.droppableSeen = 0) (hnext : s.editor.withholds (n + 1) = true)
    (hwithheld : s.editor.withholds number = true)
    (hfirst : ∀ m < number, s.editor.withholds m = false) : number = n + 1 := by
  have hlt := hspares.lt_of_withholds hseen hwithheld
  rcases Nat.lt_or_eq_of_le (Nat.succ_le_of_lt hlt) with hgt | heq
  · rw [hfirst _ hgt] at hnext
    cases hnext
  · exact heq.symm

theorem Retraces.spares {s : Session τ} {guide : EventTree} (h : s.Retraces guide) (n : Nat) :
    s.Spares n := by
  obtain ⟨next, hphase⟩ := h.phase
  exact fun number _ => Editor.withholds_of_treeReplay hphase number

/-- The session follows the guide and is at the given turn of it. Its steps are those asked for, the
last of which is the active one of the cursor. -/
structure Aligned (first : Session τ) (guide : EventTree) (turn : Turn) (s : Session τ) :
    Prop where
  lenient : s.editor.policy.Lenient
  mode : s.mode = .guided
  search : first.editor.SameSearch s.editor
  seen : s.editor.droppableSeen = first.editor.droppableSeen +
    Editor.countDroppable first.editor.settings s.recorder.tree
  suffix : s.suffix = first.suffix
  maxSteps : s.maxSteps = first.maxSteps
  cursor : ∃ position, s.editor.cursor = some (.onGuide guide position (some s.steps)) ∧
    position ≤ s.steps + 1 ∧ ∀ k, position ≤ k → k < s.steps + 1 →
      ∃ step, guide.steps[k]? = some step ∧ step.kind.isChoice = true
  size : s.recorder.tree.size = s.steps + turn.isDone.toNat
  latest : ∀ a, turn = .holds a → s.recorder.latestOf a = some s.steps
  sound : s.recorder.Sound

theorem Guided.aligned {s : Session τ} {guide : EventTree} (h : s.Guided guide) :
    Aligned s guide (.holds .harness) s where
  lenient := h.lenient
  mode := h.mode
  search := .refl s.editor
  seen := by
    rw [h.recorder]
    rfl
  suffix := rfl
  maxSteps := rfl
  cursor := by
    refine ⟨1, ?_, Nat.le_add_left 1 s.steps, fun k hk hlt => ?_⟩
    · rw [h.cursor, h.steps]
      rfl
    · rw [h.steps] at hlt
      omega
  size := by
    rw [h.recorder, h.steps]
    rfl
  latest a ha := by
    cases ha
    rw [h.recorder, h.steps]
    rfl
  sound := by
    rw [h.recorder]
    exact Recorder.sound_empty

/-- A session whose editor is to replay its best tree. -/
theorem retraces_plan {s : Session τ} {next : Stage} {guide : EventTree}
    (hpolicy : s.editor.policy.Lenient) (hphase : s.editor.phase = .treeReplay next)
    (hbest : s.editor.best = some guide) : s.plan.Retraces guide := by
  have hguided : s.editor.phase.isGuided = true := by rw [hphase]; rfl
  have hnot : ¬s.Replays := fun h => Phase.noConfusion (hphase.symm.trans h.1)
  rw [plan_of_not_replays hnot]
  refine ⟨hpolicy, if_pos hguided, ⟨next, hphase⟩, ?_, rfl, rfl⟩
  simp [Editor.beginRun, hphase, hbest, Phase.isGuided, Phase.cutoff]

/-- A session that starts from a tree retraces it first. -/
theorem retraces_ofTree (guide : EventTree) (header : Header) (c : Configuration)
    (settings : Settings) {policy : MatchPolicy} (hpolicy : policy.Lenient) (suffix : Option τ) :
    (ofTree guide header c settings policy suffix).Retraces guide := by
  unfold ofTree ofEditor
  exact retraces_plan hpolicy rfl rfl

/-- The bound of a session that starts from a tree lies behind the tree. -/
theorem cutsAt_ofTree {guide : EventTree} (hsize : guide.size < UInt64.size) (header : Header)
    (c : Configuration) (settings : Settings) (policy : MatchPolicy) (suffix : Option τ)
    {steps : Nat} (hle : steps ≤ guide.size) :
    (ofTree guide header c settings policy suffix).cutsAt steps = false := by
  have hmax : (ofTree guide header c settings policy suffix).maxSteps =
      Nat.min (guide.size + c.livenessThreshold) (UInt64.size - 1) := rfl
  unfold cutsAt
  rw [hmax, Bool.and_eq_false_iff]
  right
  simp only [decide_eq_false_iff_not, Nat.not_lt]
  exact Nat.le_min.mpr ⟨by omega, by omega⟩

variable {first s : Session τ} {turn turn' : Turn} {guide : EventTree}

/-- The session that has been asked and takes the next guide step, with its cursor at the given
position. -/
def take (s : Session τ) (guide : EventTree) (position : Nat) : Session τ :=
  { s.countStep with
    editor := { s.editor with cursor := some (.onGuide guide position (some (s.steps + 1))) } }

theorem Aligned.take {a : OperationId} (h : Aligned first guide (.holds a) s)
    (hturn : turn'.isDone = false) {position : Nat} (hle : position ≤ s.steps + 2)
    (hchoices : ∀ k, position ≤ k → k < s.steps + 2 →
      ∃ step, guide.steps[k]? = some step ∧ step.kind.isChoice = true) :
    Aligned first guide turn' (s.take guide position) where
  lenient := h.lenient
  mode := h.mode
  search := h.search.trans ⟨_, _, rfl⟩
  seen := h.seen
  suffix := h.suffix
  maxSteps := h.maxSteps
  cursor := ⟨position, rfl, hle, hchoices⟩
  size := by
    rw [hturn]
    exact h.size
  latest b hb := by
    rw [hb] at hturn
    cases hturn
  sound := h.sound

/-- The guide has the choice that the run has made. -/
theorem Aligned.nextChoice {a : OperationId} {choice : Choice}
    (h : Aligned first guide (.holds a) s) (boolean : Bool)
    (hforetells : Foretells guide s.recorder (.decided a choice))
    (hkind : Cursor.isChoiceOf boolean (.ofChoice choice) = true) :
    ∃ s', s.countStep.editor.nextChoice boolean = (some (.ofChoice choice), s'.editor) ∧
      s' = { s.countStep with editor := s'.editor } ∧
      Aligned first guide (.decided a choice) s' := by
  obtain ⟨position, hcursor, hle, hchoices⟩ := h.cursor
  obtain ⟨⟨step, hstep, hstepKind⟩, hlinks⟩ := hforetells
  obtain ⟨linked, hlinked, hdirect⟩ := hlinks s.steps (h.latest a rfl)
  have hsize : s.recorder.tree.size = s.steps + 1 := h.size
  rw [hsize] at hstep hdirect
  rw [← hstepKind] at hkind
  have hnext : (Cursor.onGuide guide position (some s.steps)).nextChoice boolean =
      (some step.kind, .onGuide guide position (some (s.steps + 1))) :=
    Cursor.nextChoice_onGuide hlinked hdirect hstep hkind
  -- the cursor does not move on, and so has one more choice to pass over later
  refine ⟨s.take guide position, ?_, rfl, h.take rfl (Nat.le_succ_of_le hle) fun k hk hlt => ?_⟩
  · show s.editor.nextChoice boolean = _
    rw [Editor.nextChoice_of_cursor hcursor, hnext, hstepKind]
    rfl
  · by_cases heq : k = s.steps + 1
    · refine ⟨step, by rw [heq]; exact hstep, ?_⟩
      rw [hstepKind]
      cases choice <;> rfl
    · exact hchoices k hk (by omega)

/-- A step that the operation of the turn takes is recorded. -/
theorem Aligned.taken {a target : OperationId} {kind : StepKind} {r : Recorder}
    (h : Aligned first guide turn s) (hturn : turn.isDone = false)
    (hgrows : s.recorder.Grows kind a target r) {s' : Session τ}
    (hs' : s' = { s with editor := s'.editor, recorder := r })
    (hsearch : s.editor.SameSearch s'.editor) (hcursor : s'.editor.cursor = s.editor.cursor)
    (hseen : s'.editor.droppableSeen = first.editor.droppableSeen +
      Editor.countDroppable first.editor.settings r.tree) : Aligned first guide (.holds a) s' := by
  have hsize := h.size
  rw [hturn] at hsize
  have hsize : s.recorder.tree.size = s.steps := hsize
  rw [hs']
  refine ⟨?_, h.mode, h.search.trans hsearch, hseen, h.suffix, h.maxSteps, ?_, ?_, fun b hb => ?_,
    hgrows.sound⟩
  · rw [hsearch.policy]
    exact h.lenient
  · obtain ⟨position, hplace, hrest⟩ := h.cursor
    exact ⟨position, hcursor.trans hplace, hrest⟩
  · show r.tree.size = s.steps + 1
    rw [hgrows.size, hsize]
  · cases hb
    show r.latestOf a = some s.steps
    rw [hgrows.latest, hsize]

/-- A send that is granted is the next step of the guide, which the session is taking. -/
theorem Aligned.exists_guideSend {op target : OperationId} {event : Event} {delivery : Delivery}
    (h : Aligned first guide (.granted op ⟨.send, .inbox, target, none⟩) s)
    (hextends : (s.recorder.recordDelivery op target event delivery).tree.Extends guide) :
    ∃ step, guide.steps[s.steps]? = some step ∧ step.index = s.steps ∧
      (∀ position, Editor.guideSend? (.onGuide guide position (some s.steps)) = some step) ∧
      guide.isWithheld s.steps = decide (delivery = .withhold) := by
  obtain ⟨hgrows, hmark⟩ := h.sound.recordDelivery op target event delivery
  obtain ⟨step, hstep, hindex, hkind, -, -⟩ := exists_step_of_grows hgrows hextends
  have hsize : s.recorder.tree.size = s.steps := h.size
  have hsame := hextends.withheld s.recorder.tree.size (by
    rw [hgrows.size]
    exact Nat.lt_succ_self _)
  rw [hmark] at hsame
  rw [hsize] at hstep hindex hsame
  refine ⟨step, hstep, hindex, fun position => ?_, hsame⟩
  simp [Editor.guideSend?, Cursor.activeStep?, Cursor.onGuide, hstep, hkind, Option.filter]

/-- The guide has the marks that the run has made. -/
theorem Aligned.sent {op target : OperationId} {event : Event} {delivery : Delivery}
    (h : Aligned first guide (.granted op ⟨.send, .inbox, target, none⟩) s)
    (hextends : (s.recorder.recordDelivery op target event delivery).tree.Extends guide)
    (hunlinked : ∀ k ∈ guide.withheld, ∃ step, guide.steps[k]? = some step ∧
      step.createdChild = none)
    (hspares : first.Spares (Editor.countDroppable first.editor.settings
      (s.recorder.recordDelivery op target event delivery).tree)) :
    ∃ s', s.onSend op target event = (delivery, s') ∧ Aligned first guide (.holds op) s' := by
  obtain ⟨position, hcursor, -, -⟩ := h.cursor
  obtain ⟨step, hstep, hindex, hactive, hwithheld⟩ := h.exists_guideSend hextends
  have hgrows := (h.sound.recordDelivery op target event delivery).1
  have hsend := Editor.onSend_of_guideSend hcursor (hactive position) event
  -- the session has counted the droppable sends of its recording
  have hcount := h.sound.countDroppable_recordDelivery first.editor.settings op target event
    delivery
  have hseen : s.editor.droppableSeen + (s.editor.settings.isDroppable event.name).toNat =
      first.editor.droppableSeen + Editor.countDroppable first.editor.settings
        (s.recorder.recordDelivery op target event delivery).tree := by
    rw [h.search.settings, h.seen, hcount, Nat.add_assoc]
  have hspared : s.editor.withholds (s.editor.droppableSeen +
      (s.editor.settings.isDroppable event.name).toNat) = false := by
    rw [h.search.withholds, hseen]
    exact hspares _ (Nat.le_refl _)
  have heditor : ∃ e : Editor, s.editor.onSend event = (delivery, e) ∧
      s.editor.SameSearch e ∧ e.cursor = s.editor.cursor ∧
        e.droppableSeen = s.editor.droppableSeen +
          (s.editor.settings.isDroppable event.name).toNat := by
    have hguide : (Cursor.onGuide guide position (some s.steps)).guide.isWithheld step.index =
        decide (delivery = .withhold) := by
      rw [hindex]
      exact hwithheld
    simp only [hguide, hspared, Bool.and_false, Bool.or_false] at hsend
    rw [hsend]
    cases delivery with
    | deliver => exact ⟨_, rfl, ⟨_, _, rfl⟩, rfl, rfl⟩
    | withhold =>
        -- a withheld send leads to no receive that had to be deleted
        have hmem : s.steps ∈ guide.withheld := List.contains_iff_mem.mp hwithheld
        obtain ⟨step', hstep', hcreated⟩ := hunlinked s.steps hmem
        rw [hstep] at hstep'
        cases hstep'
        refine ⟨_, rfl, ⟨_, _, rfl⟩, ?_, rfl⟩
        rw [hcreated, hcursor]
        rfl
  obtain ⟨e, hsent, hsearch, hcursor', hcounted⟩ := heditor
  refine ⟨{ s with
    editor := e, recorder := s.recorder.recordDelivery op target event delivery }, ?_, ?_⟩
  · unfold onSend
    rw [hsent]
  · exact h.taken rfl hgrows rfl hsearch hcursor' (hcounted.trans hseen)

/-! ## Keeping in step -/

variable [Strategy τ]

section Guided

variable {s : Session τ} (hmode : s.mode = .guided)
include hmode

theorem nextOperation_of_guided (choices : List Snapshot) (current : OperationId) :
    s.nextOperation choices current = match s.editor.nextOperation choices with
      | (some id, editor) => (.ok (some id), { s.countStep with editor })
      | (none, editor) => { s.countStep with editor }.goFree
          (Strategy.nextOperation · choices current)
          ((choices.find? fun op : Snapshot => op.enabled).map Snapshot.id) := by
  have hcount : s.countStep.mode = .guided := hmode
  unfold nextOperation
  dsimp only
  split
  · rename_i hreplay
    rw [hcount] at hreplay
    cases hreplay
  · rfl
  · rename_i hfree
    rw [hcount] at hfree
    cases hfree

theorem nextBoolean_of_guided (max : UInt32) :
    s.nextBoolean max = match s.editor.nextBoolean with
      | (some b, editor) => (.ok (some b), { s.countStep with editor })
      | (none, editor) => { s.countStep with editor }.askSuffix
          (Strategy.nextBoolean · max) (some false) := by
  have hcount : s.countStep.mode = .guided := hmode
  unfold nextBoolean
  dsimp only
  split
  · rename_i hreplay
    rw [hcount] at hreplay
    cases hreplay
  · rfl
  · rename_i hfree
    rw [hcount] at hfree
    cases hfree

theorem nextInteger_of_guided (max : UInt32) :
    s.nextInteger max = match s.editor.nextInteger max with
      | (.error e, editor) => (.error e, { s.countStep with editor })
      | (.ok (some n), editor) => (.ok (some n), { s.countStep with editor })
      | (.ok none, editor) => { s.countStep with editor }.askSuffix
          (Strategy.nextInteger · max) (some 0) := by
  have hcount : s.countStep.mode = .guided := hmode
  unfold nextInteger
  dsimp only
  split
  · rename_i hreplay
    rw [hcount] at hreplay
    cases hreplay
  · rfl
  · rename_i hfree
    rw [hcount] at hfree
    cases hfree

end Guided

/-- The guide names the operation that the run has scheduled. -/
theorem Aligned.grants {current : OperationId} {choices : List Snapshot} {op : Snapshot}
    (h : Aligned first guide (.holds current) s) (hdistinct : (choices.map Snapshot.id).Nodup)
    (hmem : op ∈ choices) (henabled : op.enabled = true)
    (hforetells : Foretells guide s.recorder (.granted op.id op.next)) :
    ∃ s', s.nextOperation choices current = (.ok (some op.id), s') ∧
      Aligned first guide (.granted op.id op.next) s' := by
  obtain ⟨position, hcursor, hle, hchoices⟩ := h.cursor
  obtain ⟨step, hstep, hsource, hkind, hfits⟩ := hforetells
  have hsize : s.recorder.tree.size = s.steps + 1 := h.size
  rw [hsize] at hstep
  have haccepts : s.editor.policy.accepts step op = true := h.lenient step op hkind hfits
  -- the choices in between have been answered by their links already
  have hnext : (Cursor.onGuide guide position (some s.steps)).nextOperation s.editor.policy
      choices = (some op.id, .onGuide guide (s.steps + 2) (some (s.steps + 1))) := by
    rw [Cursor.nextOperation_passing hle hchoices]
    exact Cursor.nextOperation_take hstep hkind hdistinct hmem henabled hsource haccepts
  have heditor : s.countStep.editor.nextOperation choices =
      (some op.id, (s.take guide (s.steps + 2)).editor) := by
    show s.editor.nextOperation choices = _
    rw [Editor.nextOperation_of_cursor hcursor, hnext]
    rfl
  refine ⟨s.take guide (s.steps + 2), ?_, h.take rfl (Nat.le_refl _) fun k hk hlt => ?_⟩
  · rw [nextOperation_of_guided h.mode, show s.editor.nextOperation choices = _ from heditor]
    rfl
  · omega

theorem Aligned.flips {a : OperationId} {b : Bool} (h : Aligned first guide (.holds a) s)
    (hforetells : Foretells guide s.recorder (.decided a (.boolean b))) (max : UInt32) :
    ∃ s', s.nextBoolean max = (.ok (some b), s') ∧
      Aligned first guide (.decided a (.boolean b)) s' := by
  obtain ⟨s', hchoice, hs', haligned⟩ := h.nextChoice true hforetells rfl
  have hchoice : s.editor.nextChoice true = (some (.boolean b), s'.editor) := hchoice
  refine ⟨s', ?_, haligned⟩
  rw [nextBoolean_of_guided h.mode]
  simp only [Editor.nextBoolean, hchoice]
  rw [← hs']

theorem Aligned.rolls {a : OperationId} {n max : UInt32} (h : Aligned first guide (.holds a) s)
    (hforetells : Foretells guide s.recorder (.decided a (.integer n)))
    (hrange : isInRange n max = true) :
    ∃ s', s.nextInteger max = (.ok (some n), s') ∧
      Aligned first guide (.decided a (.integer n)) s' := by
  obtain ⟨s', hchoice, hs', haligned⟩ := h.nextChoice false hforetells rfl
  have hchoice : s.editor.nextChoice false = (some (.integer n), s'.editor) := hchoice
  refine ⟨s', ?_, haligned⟩
  rw [nextInteger_of_guided h.mode]
  simp only [Editor.nextInteger, hchoice, hrange, if_true]
  rw [← hs']

/-- A step that is announced is recorded. -/
theorem Aligned.noticed {n : Notice} {a target : OperationId} {kind : StepKind}
    (h : Aligned first guide turn s) (hturn : turn.isDone = false)
    (hdeed : Exchange.deed? (.notice n) = some (kind, a, target)) :
    ∃ s', (Exchange.notice n).Moves s s' ∧ Aligned first guide (.holds a) s' := by
  have hgrows : s.recorder.Grows kind a target (s.recorder.record n) := h.sound.grows_hear hdeed
  have hkind : kind ≠ .send := by
    rintro rfl
    exact Exchange.deed?_notice_ne_send hdeed
  refine ⟨{ s with recorder := s.recorder.record n }, rfl,
    h.taken hturn hgrows rfl (.refl s.editor) rfl ?_⟩
  rw [hgrows.countDroppable_of_ne hkind]
  exact h.seen

/-- A notice that makes no step changes nothing. -/
theorem Aligned.unmoved {n : Notice} (h : Aligned first guide turn s)
    (hdeed : Exchange.deed? (.notice n) = none) :
    ∃ s', (Exchange.notice n).Moves s s' ∧ Aligned first guide turn s' := by
  obtain ⟨htree, hlatest, -⟩ := Recorder.hear_of_deed?_eq_none hdeed s.recorder
  have htree : (s.recorder.record n).tree = s.recorder.tree := htree
  have hlatest : (s.recorder.record n).latest = s.recorder.latest := hlatest
  refine ⟨{ s with recorder := s.recorder.record n }, rfl, h.lenient, h.mode, h.search, ?_,
    h.suffix, h.maxSteps, h.cursor, ?_, fun a ha => ?_, (h.sound.hear (.notice n)).1⟩
  · show s.editor.droppableSeen = _ + Editor.countDroppable _ (s.recorder.record n).tree
    rw [htree]
    exact h.seen
  · show (s.recorder.record n).tree.size = _
    rw [htree]
    exact h.size
  · show (s.recorder.record n).latest.lookup a = _
    rw [hlatest]
    exact h.latest a ha

/-- One exchange in step with the guide. -/
theorem Aligned.goes {e : Exchange} (h : Aligned first guide turn s) (hgoes : turn.Goes e turn')
    (hforetells : Foretells guide (s.recorder.hear e) turn')
    (hextends : (s.recorder.hear e).tree.Extends guide)
    (hunlinked : ∀ k ∈ guide.withheld, ∃ step, guide.steps[k]? = some step ∧
      step.createdChild = none)
    (hspares : first.Spares (Editor.countDroppable first.editor.settings
      (s.recorder.hear e).tree))
    (hbound : e = .bound false → first.cutsAt s.steps = false)
    (hfair : ∀ fair, e = .fairness fair → first.suffix.any Strategy.isFair = fair) :
    ∃ s', e.Moves s s' ∧ Aligned first guide turn' s' := by
  cases hgoes with
  | unbound =>
      refine ⟨s, ⟨?_, rfl⟩, h⟩
      show (0 < s.maxSteps && s.maxSteps < s.steps) = false
      rw [h.maxSteps]
      exact hbound rfl
  | @fairness _ fair =>
      refine ⟨s, ⟨?_, rfl⟩, h⟩
      show s.suffix.any Strategy.isFair = fair
      rw [h.suffix]
      exact hfair fair rfl
  | logged => exact ⟨s, rfl, h⟩
  | grants hdistinct hmem henabled => exact h.grants hdistinct hmem henabled hforetells
  | flips => exact h.flips hforetells _
  | rolls hrange => exact h.rolls hforetells hrange
  | chosen => exact h.noticed rfl rfl
  | monitored => exact h.unmoved rfl
  | created => exact h.noticed rfl rfl
  | started hchild => exact h.noticed rfl (if_neg hchild)
  | received => exact h.noticed rfl rfl
  | sent => exact h.sent hextends hunlinked hspares

/-- A session in step with the tree of a dialogue holds its side of that dialogue, as long as its
candidate withholds nothing more. -/
theorem Aligned.follows {l l' : List Exchange} {last : OperationId}
    (h : Aligned first guide turn s) (hpath : Turn.Path turn (l ++ l') (.holds last))
    (hextends : (s.recorder.hearAll (l ++ l')).tree.Extends guide)
    (hunlinked : ∀ k ∈ guide.withheld, ∃ step, guide.steps[k]? = some step ∧
      step.createdChild = none)
    (hspares : first.Spares (Editor.countDroppable first.editor.settings
      (s.recorder.hearAll l).tree))
    (hbound : ∀ l₁ l₂, l = l₁ ++ .bound false :: l₂ →
      first.cutsAt (s.steps + requests l₁) = false)
    (hfair : ∀ fair, .fairness fair ∈ l → first.suffix.any Strategy.isFair = fair) :
    ∃ turn' s', Follows s l s' ∧ Aligned first guide turn' s' ∧
      Turn.Path turn' l' (.holds last) := by
  -- what is left of the dialogue is in the guide, so that the guide foretells every turn to come
  induction l generalizing turn s with
  | nil => exact ⟨turn, s, rfl, h, hpath⟩
  | cons e l ih =>
      cases hpath with
      | cons hgoes hpath =>
          have hsound := (h.sound.hear e).1
          have hfirst := (hsound.hearAll l).2.countDroppable_le first.editor.settings
          obtain ⟨s₁, hmoves, haligned⟩ := h.goes hgoes
            (foretells_of_path hpath hsound hextends)
            ((hsound.hearAll (l ++ l')).2.trans hextends) hunlinked (hspares.mono hfirst)
            (fun he => hbound [] l (by rw [he]; rfl))
            (fun fair he => hfair fair (by rw [he]; exact List.mem_cons_self))
          have hheard := heard_of_moves hmoves
          have hrecorder : s₁.recorder = s.recorder.hear e := hheard.recorder
          rw [List.cons_append, Recorder.hearAll_cons, ← hrecorder] at hextends
          rw [Recorder.hearAll_cons, ← hrecorder] at hspares
          obtain ⟨turn', s', hfollows, hlast, hpath'⟩ := ih haligned hpath hextends hspares
            (fun l₁ l₂ hl => by
              have hcut := hbound (e :: l₁) l₂ (by rw [hl]; rfl)
              rw [← List.singleton_append, requests_append, ← Nat.add_assoc,
                ← hheard.steps] at hcut
              exact hcut)
            (fun fair he => hfair fair (List.mem_cons_of_mem e he))
          exact ⟨turn', s', ⟨s₁, hmoves, hfollows⟩, hlast, hpath'⟩

/-- A droppable send of the number that the candidate withholds next is withheld. -/
theorem Aligned.withholds {sender target : OperationId} {event : Event} {delivery : Delivery}
    (h : Aligned first guide (.granted sender ⟨.send, .inbox, target, none⟩) s)
    (hseen : first.editor.droppableSeen = 0)
    (hextends : (s.recorder.recordDelivery sender target event delivery).tree.Extends guide)
    (hdroppable : first.editor.settings.isDroppable event.name = true)
    (hnumber : first.editor.withholds
      (Editor.countDroppable first.editor.settings s.recorder.tree + 1) = true) :
    (Exchange.send sender target event .withhold).Moves s
      (Strategy.onSend s sender target event).2 := by
  obtain ⟨position, hcursor, -, -⟩ := h.cursor
  obtain ⟨step, -, -, hactive, -⟩ := h.exists_guideSend hextends
  have hsent := Editor.onSend_of_guideSend hcursor (hactive position) event
  have hdroppable' : s.editor.settings.isDroppable event.name = true := by
    rw [h.search.settings]
    exact hdroppable
  have hnumber' : s.editor.withholds (s.editor.droppableSeen + 1) = true := by
    rw [h.search.withholds, h.seen, hseen, Nat.zero_add]
    exact hnumber
  simp only [hdroppable', Bool.toNat_true, hnumber', Bool.and_self, Bool.or_true, if_true] at hsent
  show s.onSend sender target event = (.withhold, (s.onSend sender target event).2)
  unfold onSend
  rw [hsent]

/-- At the end of the guide the suffix is asked, or else the first enabled operation is named. -/
theorem Aligned.obliges {last : OperationId} (h : Aligned first guide (.holds last) s)
    (hend : guide.size ≤ s.steps + 1) (hobliging : ∀ t ∈ first.suffix, Strategy.Obliging t)
    (choices : List Snapshot) (current : OperationId) :
    ∃ answer s', s.nextOperation choices current = (answer, s') ∧
      (Exchange.operation choices current answer).Legal ∧
      (Exchange.operation choices current answer).Decided ∧
      s'.suffix.any Strategy.isFair = first.suffix.any Strategy.isFair := by
  obtain ⟨position, hcursor, hle, hchoices⟩ := h.cursor
  have hnext : (Cursor.onGuide guide position (some s.steps)).nextOperation s.editor.policy
      choices = (none, .onGuide guide (s.steps + 1) none) := by
    rw [Cursor.nextOperation_passing hle hchoices]
    exact Cursor.nextOperation_end hend
  have heditor : s.editor.nextOperation choices =
      (none, { s.editor with cursor := some (.onGuide guide (s.steps + 1) none) }) := by
    rw [Editor.nextOperation_of_cursor hcursor, hnext]
  rw [nextOperation_of_guided h.mode, heditor]
  have hsuffix : s.countStep.suffix = first.suffix := h.suffix
  simp only [goFree, askSuffix, hsuffix]
  cases hcase : first.suffix with
  | none =>
      refine ⟨_, _, rfl, ⟨_, rfl, fun id hid => ?_⟩, ?_, ?_⟩
      · obtain ⟨op, hfound, rfl⟩ := Option.map_eq_some_iff.mp hid
        exact ⟨op, List.mem_of_find?_eq_some hfound, rfl, by simpa using List.find?_some hfound⟩
      · cases hfound : choices.find? (·.enabled) with
        | none => simpa [Exchange.Decided] using List.find?_eq_none.mp hfound
        | some op => trivial
      · rfl
  | some t =>
      obtain ⟨hlegal, hdecided, hfair⟩ := hobliging t hcase choices current
      exact ⟨_, _, rfl, hlegal, hdecided, hfair⟩

end Session

end Minimization

end Interleave
