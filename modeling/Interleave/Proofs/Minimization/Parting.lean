import Interleave.Proofs.Minimization.Retracing
import Interleave.Proofs.Program.Sending

/-!
# After a run has parted from its guide

A run that does not follow its guide any further still has a cursor in it. Nothing that the guide
marks can be withheld any more once the cursor has passed all marks (`Cursor.Clear`), and then only
droppable sends are withheld whose number the candidate withholds. The session numbers them as its
recording does, up to the end of the guide, behind which nothing is withheld at all
(`Cursor.Ended`). `Session.Parted` puts this together; every exchange keeps it.
-/

namespace Interleave

/-- Every step stands at the place of its index. -/
def EventTree.Indexed (t : EventTree) : Prop :=
  ∀ (k : Nat) (step : Step), t.steps[k]? = some step → step.index = k

namespace Recorder

theorem Grows.indexed {r r' : Recorder} {kind : StepKind} {source target : OperationId}
    (h : r.Grows kind source target r') (hindexed : r.tree.Indexed) : r'.tree.Indexed := by
  intro k step hstep
  have hlt : k < r'.tree.size := (Array.getElem?_eq_some_iff.mp hstep).1
  rw [h.size] at hlt
  rcases Nat.lt_succ_iff_lt_or_eq.mp hlt with hold | rfl
  · -- a step that was there before keeps its index
    have hold' := Array.getElem?_eq_getElem hold
    obtain ⟨step', hstep', hcontinues⟩ := h.tree.steps k _ hold'
    rw [hstep] at hstep'
    cases hstep'
    exact hcontinues.index.trans (hindexed k _ hold')
  · obtain ⟨step', hstep', hindex, -⟩ := h.step
    rw [hstep] at hstep'
    cases hstep'
    exact hindex

/-- Steps are recorded with the indices of their places. -/
theorem Sound.indexed_hearAll {r : Recorder} (h : r.Sound) (hindexed : r.tree.Indexed)
    (l : List Exchange) : (r.hearAll l).tree.Indexed := by
  induction l generalizing r with
  | nil => exact hindexed
  | cons e l ih =>
      have hhear := h.hear e
      refine ih hhear.1 ?_
      cases hdeed : e.deed? with
      | none =>
          rw [(hear_of_deed?_eq_none hdeed r).1]
          exact hindexed
      | some deed =>
          obtain ⟨kind, source, target⟩ := deed
          exact (h.grows_hear hdeed).indexed hindexed

theorem indexed_empty : empty.tree.Indexed := by
  intro k step hstep
  cases k with
  | zero =>
      cases hstep
      rfl
  | succ k => cases hstep

end Recorder

namespace Minimization

/-! ## Places in a guide -/

namespace Cursor

variable {c : Cursor}

/-- The marks of the guide lie in front of the next step. -/
def Clear (c : Cursor) : Prop :=
  c.guide.Indexed ∧ ∀ k, c.position ≤ k → c.guide.isWithheld k = false

/-- The step that is being taken is not a withheld send. -/
def Unmarked (c : Cursor) : Prop :=
  ∀ step, Editor.guideSend? c = some step → c.guide.isWithheld step.index = false

/-- The guide has no step left, and it is no send that is being taken. -/
def Ended (c : Cursor) : Prop :=
  c.reachedEnd = true ∧ Editor.guideSend? c = none

theorem guideSend?_release (c : Cursor) : Editor.guideSend? c.release = none := rfl

/-- The next operation leads on in the same guide, and the step that it takes, if any, is one of
those that were still ahead. -/
theorem place_nextOperation (policy : MatchPolicy) (choices : List Snapshot) (c : Cursor) :
    (c.nextOperation policy choices).2.guide = c.guide ∧
      c.position ≤ (c.nextOperation policy choices).2.position ∧
      ((c.nextOperation policy choices).2.active = none ∨
        ∃ k, (c.nextOperation policy choices).2.active = some k ∧ c.position ≤ k) := by
  have hwalked := walked_nextOperation policy choices c
  refine ⟨hwalked.guide, hwalked.onward, ?_⟩
  cases hactive : (c.nextOperation policy choices).2.active with
  | none => exact Or.inl rfl
  | some k => exact Or.inr ⟨k, rfl, (hwalked.taken k hactive).1⟩

/-- Ahead of a cursor that has passed all marks there is no withheld send to be taken. -/
theorem Clear.nextOperation (h : c.Clear) (policy : MatchPolicy) (choices : List Snapshot) :
    (c.nextOperation policy choices).2.Clear ∧ (c.nextOperation policy choices).2.Unmarked := by
  obtain ⟨hindexed, hclear⟩ := h
  obtain ⟨hguide, hposition, hactive⟩ := place_nextOperation policy choices c
  refine ⟨⟨hguide ▸ hindexed, fun k hk => ?_⟩, fun step hstep => ?_⟩
  · rw [hguide]
    exact hclear k (Nat.le_trans hposition hk)
  · unfold Editor.guideSend? activeStep? at hstep
    obtain ⟨hfound, -⟩ := Option.filter_eq_some_iff.mp hstep
    rcases hactive with hnone | ⟨k, hk, hle⟩
    · rw [hnone] at hfound
      cases hfound
    · rw [hk, Option.bind_some, hguide] at hfound
      rw [hguide, hindexed k step hfound]
      exact hclear k hle

/-- A choice leaves the cursor where it is or makes it take a step that is no send. -/
theorem nextChoice_cases (boolean : Bool) (c : Cursor) :
    (c.nextChoice boolean).2 = c ∨
      ∃ next, (c.nextChoice boolean).2 = { c with active := some next } ∧
        Editor.guideSend? { c with active := some next } = none := by
  rcases nextChoice_eq_or boolean c with hnone | ⟨_, _, next, step, _, _, _, hstep, hkind, hsome⟩
  · left
    rw [hnone]
  · right
    have hne : step.kind ≠ .send := (isChoice_of_isChoiceOf hkind).2
    refine ⟨next, by rw [hsome], ?_⟩
    simp [Editor.guideSend?, activeStep?, hstep, hne, Option.filter]

theorem Clear.nextChoice (h : c.Clear) (boolean : Bool) : (c.nextChoice boolean).2.Clear := by
  rcases nextChoice_cases boolean c with hsame | ⟨next, hnext, -⟩
  · rw [hsame]
    exact h
  · rw [hnext]
    exact h

theorem Unmarked.nextChoice (h : c.Unmarked) (boolean : Bool) :
    (c.nextChoice boolean).2.Unmarked := by
  rcases nextChoice_cases boolean c with hsame | ⟨next, hnext, hnone⟩
  · rw [hsame]
    exact h
  · rw [hnext]
    intro step hstep
    rw [hnone] at hstep
    cases hstep

theorem Ended.nextChoice (h : c.Ended) (boolean : Bool) : (c.nextChoice boolean).2.Ended := by
  rcases nextChoice_cases boolean c with hsame | ⟨next, hnext, hnone⟩
  · rw [hsame]
    exact h
  · rw [hnext]
    exact ⟨h.1, hnone⟩

/-- At the end of the guide the cursor stays there. -/
theorem Ended.nextOperation (h : c.Ended) (policy : MatchPolicy) (choices : List Snapshot) :
    (c.nextOperation policy choices).2.Ended := by
  have hnone : c.nextStep? = none := by
    have hend := h.1
    simp only [reachedEnd, Bool.or_eq_true, decide_eq_true_eq] at hend
    unfold nextStep?
    rcases hend with hcut | hsize
    · rw [if_pos hcut]
    · split
      · rfl
      · exact Array.getElem?_eq_none hsize
  rw [nextOperation_of_end hnone]
  exact ⟨h.1, c.guideSend?_release⟩

theorem Clear.deleteLink (h : c.Clear) (link : Option Nat) : (c.deleteLink link).Clear := by
  obtain ⟨deleted, hdelete⟩ := c.deleteLink_eq link
  rw [hdelete]
  exact h

theorem Unmarked.deleteLink (h : c.Unmarked) (link : Option Nat) :
    (c.deleteLink link).Unmarked := by
  obtain ⟨deleted, hdelete⟩ := c.deleteLink_eq link
  rw [hdelete]
  exact h

end Cursor

/-! ## Editors behind the marks of their guide -/

namespace Editor

variable {e e' : Editor} {P : Cursor → Prop}

/-- The editor has no cursor, or one of the given property. -/
def AtCursor (e : Editor) (P : Cursor → Prop) : Prop :=
  ∀ c ∈ e.cursor, P c

theorem AtCursor.nextOperation {Q : Cursor → Prop} (h : e.AtCursor P) (choices : List Snapshot)
    (himp : ∀ c, P c → Q (c.nextOperation e.policy choices).2) :
    (e.nextOperation choices).2.AtCursor Q := by
  cases hcursor : e.cursor with
  | none =>
      rw [nextOperation_of_unguided hcursor]
      intro c hc
      rw [hcursor] at hc
      cases hc
  | some cursor =>
      rw [nextOperation_of_cursor hcursor]
      intro c hc
      cases hc
      exact himp cursor (h cursor hcursor)

theorem AtCursor.nextChoice (h : e.AtCursor P) (boolean : Bool)
    (himp : ∀ c, P c → P (c.nextChoice boolean).2) : (e.nextChoice boolean).2.AtCursor P := by
  cases hcursor : e.cursor with
  | none =>
      rw [nextChoice_of_unguided hcursor]
      exact h
  | some cursor =>
      rw [nextChoice_of_cursor hcursor]
      intro c hc
      cases hc
      exact himp cursor (h cursor hcursor)

theorem Asked.droppableSeen (h : e.Asked e') : e'.droppableSeen = e.droppableSeen := by
  cases h with
  | spared => rfl
  | operation choices =>
      cases hcursor : e.cursor with
      | none => rw [nextOperation_of_unguided hcursor]
      | some cursor => rw [nextOperation_of_cursor hcursor]
  | choice boolean =>
      cases hcursor : e.cursor with
      | none => rw [nextChoice_of_unguided hcursor]
      | some cursor => rw [nextChoice_of_cursor hcursor]

/-- A property that decisions keep holds after every request. -/
theorem AtCursor.asked (h : e.AtCursor P) (hasked : e.Asked e')
    (hoperation : ∀ c, P c → ∀ policy choices, P (c.nextOperation policy choices).2)
    (hchoice : ∀ c, P c → ∀ boolean, P (c.nextChoice boolean).2) : e'.AtCursor P := by
  cases hasked with
  | spared => exact h
  | operation choices => exact h.nextOperation choices fun c hc => hoperation c hc _ _
  | choice boolean => exact h.nextChoice boolean fun c hc => hchoice c hc _

/-- What becomes of a send: at the end of the guide it is delivered, and before it is counted. It is
withheld only if it takes a withheld guide send or is withheld for the candidate. -/
theorem onSend_cases (e : Editor) (event : Event) :
    (e.AtCursor Cursor.Ended ∧ e.onSend event = (.deliver, e)) ∨
      ∃ delivery, ∃ cursor ∈ e.cursor, ∃ link, ¬cursor.Ended ∧
        e.onSend event = (delivery, { e with
          droppableSeen := e.droppableSeen + (e.settings.isDroppable event.name).toNat
          cursor := some (cursor.deleteLink link) }) ∧
        (delivery = .withhold → cursor.Unmarked → e.settings.isDroppable event.name = true ∧
          e.withholds (e.droppableSeen + 1) = true) := by
  unfold onSend
  cases hcursor : e.cursor with
  | none =>
      left
      refine ⟨fun c hc => ?_, rfl⟩
      rw [hcursor] at hc
      cases hc
  | some cursor =>
      dsimp only
      split
      · rename_i hend
        left
        refine ⟨fun c hc => ?_, rfl⟩
        rw [hcursor] at hc
        cases hc
        rw [Bool.and_eq_true, Option.isNone_iff_eq_none] at hend
        exact hend
      · rename_i hend
        have hnot : ¬cursor.Ended := by
          rintro ⟨hreached, hsend⟩
          rw [hreached, hsend] at hend
          exact hend rfl
        right
        split
        · rename_i hwithheld
          refine ⟨.withhold, cursor, rfl, _, hnot, rfl, fun _ hunmarked => ?_⟩
          -- the guide does not withhold the send, so that the candidate does
          have hguide : (guideSend? cursor).any (fun step => cursor.guide.isWithheld step.index) =
              false := by
            cases hsend : guideSend? cursor with
            | none => rfl
            | some step => exact hunmarked step hsend
          rw [hguide, Bool.false_or, Bool.and_eq_true] at hwithheld
          obtain ⟨hdroppable, hnumber⟩ := hwithheld
          rw [hdroppable] at hnumber
          exact ⟨hdroppable, hnumber⟩
        · exact ⟨.deliver, cursor, rfl, none, hnot, rfl, fun h => by cases h⟩

theorem AtCursor.onSend (h : e.AtCursor P) (event : Event)
    (himp : ∀ c, P c → ∀ link, P (c.deleteLink link)) : (e.onSend event).2.AtCursor P := by
  rcases e.onSend_cases event with ⟨-, hsame⟩ | ⟨delivery, cursor, hcursor, link, -, hsent, -⟩
  · rw [hsame]
    exact h
  · rw [hsent]
    intro c hc
    cases hc
    exact himp cursor (h cursor hcursor) link

end Editor

/-! ## Sessions behind the marks of their guide -/

namespace Session

variable {τ : Type} {s s' : Session τ} {accepted : Nat → Prop}

/-- The session cannot withhold any more what its guide withholds, except for the step that it is
taking. What it has withheld is accepted, and so is what its candidate withholds; it numbers sends
as its recording does, unless the guide has ended. -/
structure Parted (accepted : Nat → Prop) (s : Session τ) : Prop where
  sound : s.recorder.Sound
  withheld : s.recorder.tree.WithheldIn s.editor.settings accepted
  allowed : ∀ number, s.editor.withholds number = true → accepted number
  clear : s.editor.AtCursor Cursor.Clear
  counted : s.editor.AtCursor Cursor.Ended ∨
    s.editor.droppableSeen = Editor.countDroppable s.editor.settings s.recorder.tree

/-- A request keeps all of it. -/
theorem Parted.requested (h : s.Parted accepted) (hrequested : s.Requested s') :
    s'.Parted accepted := by
  have hsearch := hrequested.asked.sameSearch
  refine ⟨?_, ?_, fun number hnumber => ?_, ?_, ?_⟩
  · rw [hrequested.recorder]
    exact h.sound
  · rw [hrequested.recorder, hsearch.settings]
    exact h.withheld
  · rw [hsearch.withholds] at hnumber
    exact h.allowed number hnumber
  · exact h.clear.asked hrequested.asked (fun c hc policy choices => (hc.nextOperation _ _).1)
      fun c hc boolean => hc.nextChoice boolean
  · rw [hrequested.recorder, hsearch.settings]
    rcases h.counted with hended | hcount
    · exact Or.inl (hended.asked hrequested.asked (fun c hc policy choices => hc.nextOperation _ _)
        fun c hc boolean => hc.nextChoice boolean)
    · -- a request leaves the count alone
      exact Or.inr (hrequested.asked.droppableSeen.trans hcount)

/-- What is announced keeps all of it. -/
theorem Parted.noticed (h : s.Parted accepted) (n : Notice) :
    Parted accepted { s with recorder := s.recorder.record n } := by
  have hcount : Editor.countDroppable s.editor.settings (s.recorder.record n).tree =
      Editor.countDroppable s.editor.settings s.recorder.tree :=
    h.sound.countDroppable_hear (e := .notice n) nofun
  refine ⟨(h.sound.hear (.notice n)).1, ?_, h.allowed, h.clear, ?_⟩
  · exact h.sound.withheldIn_hear (e := .notice n) h.withheld nofun
  · exact h.counted.imp_right fun hseen => hseen.trans hcount.symm

/-- A send keeps all of it, unless it takes a withheld guide send. -/
theorem Parted.sent (h : s.Parted accepted) (hunmarked : s.editor.AtCursor Cursor.Unmarked)
    (sender target : OperationId) (event : Event) :
    (s.onSend sender target event).2.Parted accepted := by
  have hclear := h.clear.onSend event fun c hc link => hc.deleteLink link
  have hcount := h.sound.countDroppable_recordDelivery s.editor.settings sender target event
  have hsound : ∀ delivery, (s.recorder.recordDelivery sender target event delivery).Sound :=
    fun delivery => (h.sound.recordDelivery sender target event delivery).1.sound
  have hdeliver : (s.recorder.recordDelivery sender target event .deliver).tree.WithheldIn
      s.editor.settings accepted := by
    exact h.sound.withheldIn_hear (e := .send sender target event .deliver) h.withheld nofun
  unfold Session.onSend
  rcases s.editor.onSend_cases event with ⟨hended, hsent⟩ | ⟨delivery, cursor, hcursor, link,
    hnot, hsent, hnumber⟩
  · rw [hsent]
    exact ⟨hsound .deliver, hdeliver, h.allowed, h.clear, Or.inl hended⟩
  · -- before the end of the guide the number of the send is that in the recording
    have hseen := h.counted.resolve_left fun hended => hnot (hended cursor hcursor)
    rw [hsent] at hclear ⊢
    refine ⟨hsound delivery, ?_, h.allowed, hclear, Or.inr ?_⟩
    · cases delivery with
      | deliver => exact hdeliver
      | withhold =>
          obtain ⟨hdroppable, hwithheld⟩ := hnumber rfl (hunmarked cursor hcursor)
          refine h.sound.withheldIn_withhold h.withheld hdroppable ?_
          rw [← hseen]
          exact h.allowed _ hwithheld
    · exact (congrArg (· + _) hseen).trans (hcount delivery).symm

variable [Strategy τ]

/-- Every exchange keeps all of it, a send only if it does not take a withheld guide send. -/
theorem Parted.moves {e : Exchange} (h : s.Parted accepted) (hmoves : e.Moves s s')
    (hunmarked : e.isSend = true → s.editor.AtCursor Cursor.Unmarked) : s'.Parted accepted := by
  cases e with
  | bound reached =>
      rw [hmoves.2]
      exact h
  | fairness fair =>
      rw [hmoves.2]
      exact h
  | operation choices current answer => exact h.requested (requested_of_moves hmoves rfl)
  | boolean max answer => exact h.requested (requested_of_moves hmoves rfl)
  | integer max answer => exact h.requested (requested_of_moves hmoves rfl)
  | notice n =>
      rw [← show { s with recorder := s.recorder.record n } = s' from hmoves]
      exact h.noticed n
  | send sender target event delivery =>
      have hsent := h.sent (hunmarked rfl) sender target event
      rw [show s.onSend sender target event = (delivery, s') from hmoves] at hsent
      exact hsent
  | logged d =>
      rw [show s' = s from hmoves]
      exact h

/-- A step that has no mark gives way only to steps without one. -/
theorem Parted.unmarked (h : s.Parted accepted) {e : Exchange} (hmoves : e.Moves s s')
    (hunmarked : s.editor.AtCursor Cursor.Unmarked) : s'.editor.AtCursor Cursor.Unmarked := by
  let P := fun c : Cursor => c.Clear ∧ c.Unmarked
  have hboth : s.editor.AtCursor P := fun c hc => ⟨h.clear c hc, hunmarked c hc⟩
  rcases editor_of_moves hmoves with hasked | ⟨sender, target, event, delivery, -, heditor⟩
  · have hafter : s'.editor.AtCursor P := hboth.asked hasked
      (fun c hc policy choices => hc.1.nextOperation policy choices)
      fun c hc boolean => ⟨hc.1.nextChoice boolean, hc.2.nextChoice boolean⟩
    exact fun c hc => (hafter c hc).2
  · rw [heditor]
    exact hunmarked.onSend event fun c hc link => hc.deleteLink link

/-- Once no step with a mark is being taken, the whole rest of a dialogue keeps all of it. -/
theorem Parted.follows {l : List Exchange} (h : s.Parted accepted)
    (hunmarked : s.editor.AtCursor Cursor.Unmarked) (hfollows : Follows s l s') :
    s'.Parted accepted := by
  induction l generalizing s with
  | nil =>
      rw [follows_nil.mp hfollows]
      exact h
  | cons e l ih =>
      obtain ⟨middle, hmoves, hrest⟩ := hfollows
      exact ih (h.moves hmoves fun _ => hunmarked) (h.unmarked hmoves hunmarked) hrest

/-! ## In turns -/

/-- The session does not take a withheld guide send, or it will be guided to another step before the
next send. -/
def Sheds (turn : Turn) (s : Session τ) : Prop :=
  s.editor.AtCursor Cursor.Unmarked ∨ s.mode = .guided ∧ ∀ a next, turn ≠ .granted a next

/-- Where the guide is asked for an operation, it does not take a step with a mark. -/
theorem Parted.unmarked_of_guided (h : s.Parted accepted) (hmode : s.mode = .guided)
    {choices : List Snapshot} {current : OperationId} {answer : Answer OperationId}
    (hmoves : (Exchange.operation choices current answer).Moves s s') :
    s'.editor.AtCursor Cursor.Unmarked := by
  have hmoves : s.nextOperation choices current = (answer, s') := hmoves
  have hunmarked := h.clear.nextOperation (Q := Cursor.Unmarked) choices
    fun c hc => (hc.nextOperation _ choices).2
  rw [nextOperation_of_guided hmode] at hmoves
  split at hmoves
  · rename_i heditor
    rw [heditor] at hunmarked
    obtain ⟨-, rfl⟩ := Prod.mk.inj hmoves
    exact hunmarked
  · rename_i editor heditor
    rw [heditor] at hunmarked
    have hfree := congrArg (fun result => result.2.editor) hmoves
    unfold goFree at hfree
    rw [editor_askSuffix] at hfree
    rw [← show editor = s'.editor from hfree]
    exact hunmarked

/-- A guided session stays so while values are asked for. -/
theorem mode_of_moves {e : Exchange} (hmoves : e.Moves s s') (hmode : s.mode = .guided)
    (hnot : ∀ choices current answer, e ≠ .operation choices current answer) :
    s'.mode = .guided := by
  cases e with
  | bound reached =>
      rw [hmoves.2]
      exact hmode
  | fairness fair =>
      rw [hmoves.2]
      exact hmode
  | operation choices current answer => exact absurd rfl (hnot choices current answer)
  | boolean max answer =>
      have hmoves : s.nextBoolean max = (answer, s') := hmoves
      rw [nextBoolean_of_guided hmode] at hmoves
      split at hmoves
      · obtain ⟨-, rfl⟩ := Prod.mk.inj hmoves
        exact hmode
      · have hsame := congrArg (fun result => result.2.mode) hmoves
        rw [mode_askSuffix] at hsame
        exact hsame.symm.trans hmode
  | integer max answer =>
      have hmoves : s.nextInteger max = (answer, s') := hmoves
      rw [nextInteger_of_guided hmode] at hmoves
      split at hmoves
      · obtain ⟨-, rfl⟩ := Prod.mk.inj hmoves
        exact hmode
      · obtain ⟨-, rfl⟩ := Prod.mk.inj hmoves
        exact hmode
      · have hsame := congrArg (fun result => result.2.mode) hmoves
        rw [mode_askSuffix] at hsame
        exact hsame.symm.trans hmode
  | notice n =>
      rw [← show { s with recorder := s.recorder.record n } = s' from hmoves]
      exact hmode
  | send sender target event delivery =>
      have hmoves : s.onSend sender target event = (delivery, s') := hmoves
      unfold onSend at hmoves
      obtain ⟨-, rfl⟩ := Prod.mk.inj hmoves
      exact hmode
  | logged d =>
      rw [show s' = s from hmoves]
      exact hmode

/-- In a turn-taking dialogue a send comes behind the request that has granted it. -/
theorem Parted.goes {turn turn' : Turn} {e : Exchange} (h : s.Parted accepted)
    (hsheds : s.Sheds turn) (hgoes : turn.Goes e turn') (hmoves : e.Moves s s') :
    s'.Parted accepted ∧ s'.Sheds turn' := by
  rcases hsheds with hunmarked | ⟨hmode, hturn⟩
  · exact ⟨h.moves hmoves fun _ => hunmarked, Or.inl (h.unmarked hmoves hunmarked)⟩
  · cases hgoes with
    | grants => exact ⟨h.moves hmoves (nomatch ·), Or.inl (h.unmarked_of_guided hmode hmoves)⟩
    | created => exact absurd rfl (hturn _ _)
    | started => exact absurd rfl (hturn _ _)
    | received => exact absurd rfl (hturn _ _)
    | sent => exact absurd rfl (hturn _ _)
    | _ =>
        -- no operation is granted control in these exchanges
        refine ⟨h.moves hmoves (nomatch ·), Or.inr ⟨mode_of_moves hmoves hmode nofun, ?_⟩⟩
        first | exact hturn | exact nofun

theorem Parted.path {turn turn' : Turn} {l : List Exchange} (h : s.Parted accepted)
    (hsheds : s.Sheds turn) (hpath : Turn.Path turn l turn') (hfollows : Follows s l s') :
    s'.Parted accepted := by
  induction hpath generalizing s with
  | nil =>
      rw [follows_nil.mp hfollows]
      exact h
  | cons hgoes _ ih =>
      obtain ⟨middle, hmoves, hrest⟩ := hfollows
      obtain ⟨hparted, hsheds'⟩ := h.goes hsheds hgoes hmoves
      exact ih hparted hsheds' hrest

end Session

end Minimization

end Interleave
