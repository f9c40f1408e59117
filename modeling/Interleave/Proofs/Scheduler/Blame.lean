import Interleave.Proofs.EventTree.HotMonitors
import Interleave.Proofs.Minimization.Accepting
import Interleave.Proofs.Scheduler.Temperatures

/-!
# Blame for liveness bugs

A scheduler and the recorder of its strategy keep a list of hot monitors each, and a liveness bug
that the scheduler finds is blamed on a step of which only the recorder knows. What a call means to
a monitor is the same for both (`Scheduler.Turns`), so that they agree on what is hot in every state
of a run (`Scheduler.Agrees`), and the recorder has for every hot monitor the step at which the
operation stood that turned it hot for the last time (`Scheduler.exists_turn`). A liveness bug names
a monitor that is hot (`Scheduler.blamesHot_afterAll`), and so it is blamed on that step.
-/

namespace Interleave

namespace Scheduler

variable {σ : Type}

/-- Every liveness bug is one of a hot monitor. -/
def BlamesHot (s : Scheduler σ) : Prop :=
  ∀ m message, s.bug = some ⟨.liveness m, message⟩ → m ∈ s.hotMonitors.map Prod.fst

theorem blamesHot_of_bug {s : Scheduler σ} (h : s.bug = none) : s.BlamesHot := by
  intro m message hbug
  rw [h] at hbug
  cases hbug

/-- A run without a bug that fails for another reason blames no monitor. -/
theorem blamesHot_fail {s : Scheduler σ} (h : s.bug = none) {kind : BugKind}
    (hkind : ∀ m, kind ≠ .liveness m) (message : String) : (s.fail kind message).BlamesHot := by
  intro m text hbug
  rw [bug_fail h] at hbug
  cases hbug
  exact absurd rfl (hkind m)

/-- No liveness bug is reported by a call alone. -/
theorem reported?_ne_liveness (s : Scheduler σ) (c : Call) (m message : String) :
    s.reported? c ≠ some ⟨.liveness m, message⟩ := by
  intro hreported
  cases c with
  | start t =>
      simp only [reported?] at hreported
      split at hreported <;> cases hreported
  | create | yield | nextBoolean | nextInteger | blockOnReceive | unblock | complete | notify
  | send | failAssertion | reportAssertion | stop => cases hreported

variable [Strategy σ]

/-! ## Which monitors are blamed -/

section Open

variable {s : Scheduler σ} (h : s.bug = none)

include h

/-- The monitor that is hot at the end is the first one listed. -/
theorem blamesHot_exhaust (choices : List Snapshot) : (s.exhaust choices).BlamesHot := by
  unfold exhaust
  dsimp only
  split
  · exact blamesHot_fail h (fun _ => BugKind.noConfusion) _
  · split
    · rename_i monitor temperature rest hlist
      split
      · intro m message hbug
        rw [bug_fail h] at hbug
        cases hbug
        show monitor ∈ s.hotMonitors.map Prod.fst
        rw [hlist]
        exact List.mem_cons_self
      · exact blamesHot_of_bug h
    · exact blamesHot_of_bug h

/-- The monitor that overheats is found in the list. -/
theorem blamesHot_dispatch (current next : OperationId) :
    (s.dispatch current next).2.BlamesHot := by
  let s₁ := { s with schedule := s.schedule.push (.schedule next) }
  have hheated : s₁.heat.bug = none := (sameVerdict_heat s₁).bug.trans h
  rcases dispatch_cases s current next with ⟨monitor, hfound, hend⟩ | hpass
  · rw [hend]
    intro m message hbug
    rw [bug_fail hheated] at hbug
    cases hbug
    unfold overheatedMonitor? at hfound
    split at hfound
    · cases hfound
    · obtain ⟨entry, hentry, rfl⟩ := Option.map_eq_some_iff.mp hfound
      exact List.mem_map_of_mem (List.mem_of_find?_eq_some hentry)
  · rw [hpass]
    exact blamesHot_of_bug ((alike_handOver s₁.heat current next).bug.trans hheated)

theorem blamesHot_resolve (current : OperationId) (choices : List Snapshot)
    (answer : Answer OperationId) : (s.resolve current choices answer).2.BlamesHot := by
  rcases resolve_cases s current choices answer with ⟨e, hend⟩ | ⟨-, hend⟩ | ⟨d, -, hdispatch⟩
  · rw [hend]
    exact blamesHot_of_bug h
  · rw [hend]
    exact blamesHot_exhaust h choices
  · rw [hdispatch]
    exact blamesHot_dispatch h current d

theorem blamesHot_settle {α : Type} (q : σ) (t : Token) (toChoice : α → Choice)
    (toDecision : α → Decision) (answer : Answer α) :
    ({ s with strategy := q }.settle t toChoice toDecision answer).2.BlamesHot := by
  rcases answer with e | _ | value <;> exact blamesHot_of_bug h

end Open

theorem blamesHot_of_refused {s s' : Scheduler σ} {t : Token} (hopen : s.Open)
    (h : s.refusal? t = some s') : s'.BlamesHot := by
  cases refuses_of_refused h with
  | ended => exact blamesHot_of_bug hopen.bug
  | misused => exact blamesHot_fail hopen.bug (fun _ => BugKind.noConfusion) _
  | bound =>
      intro m message hbug
      cases bug_cutOff hopen.bug _ hbug

/-- Where a run goes on, a call that ends it blames a hot monitor or none. -/
theorem Open.blamesHot_after {s : Scheduler σ} (h : s.Open) (c : Call) :
    (s.after c).BlamesHot := by
  cases c with
  | create id name => exact blamesHot_of_bug ((alike_create s id name).bug.trans h.bug)
  | start t =>
      show (s.start t).2.BlamesHot
      rcases start_cases s t with ⟨slot, -, -, hstart⟩ | ⟨-, hfail⟩
      · rw [hstart]
        exact blamesHot_of_bug h.bug
      · rw [hfail]
        exact blamesHot_fail h.bug (fun _ => BugKind.noConfusion) _
  | yield t kind targetKind target =>
      show (s.yield t kind targetKind target).2.BlamesHot
      cases href : s.refusal? t with
      | some s' =>
          rw [yield_of_refused href]
          exact blamesHot_of_refused h href
      | none =>
          rw [yield_of_admitted href]
          exact blamesHot_resolve ((alike_asked s t _).bug.trans h.bug) _ _ _
  | nextBoolean t max fairness =>
      show (s.nextBoolean t max fairness).2.BlamesHot
      cases href : s.refusal? t with
      | some s' =>
          rw [nextBoolean, href]
          exact blamesHot_of_refused h href
      | none =>
          rw [nextBoolean, href]
          exact blamesHot_settle h.bug _ t _ _ _
  | nextInteger t max =>
      show (s.nextInteger t max).2.BlamesHot
      cases href : s.refusal? t with
      | some s' =>
          rw [nextInteger, href]
          exact blamesHot_of_refused h href
      | none =>
          rw [nextInteger, href]
          exact blamesHot_settle h.bug _ t _ _ _
  | notify n => exact blamesHot_of_bug ((sameVerdict_notify s n).bug.trans h.bug)
  | send sender target event =>
      exact blamesHot_of_bug ((alike_send s sender target event).bug.trans h.bug)
  | failAssertion text => exact blamesHot_fail h.bug (fun _ => BugKind.noConfusion) text
  | reportAssertion text =>
      intro m message hbug
      have hbug : (s.reportAssertion text).bug = some ⟨.liveness m, message⟩ := hbug
      rw [bug_reportAssertion h.bug] at hbug
      cases hbug
  | blockOnReceive | unblock | complete | stop => exact blamesHot_of_bug h.bug

/-- In every state of a run a liveness bug is one of a hot monitor. -/
theorem blamesHot_afterAll (i : Nat) (config : Configuration) (q : σ) (calls : List Call) :
    ((new i config q).afterAll calls).BlamesHot := by
  induction calls using List.reverseRecOn with
  | nil => exact blamesHot_of_bug rfl
  | append_singleton calls c ih =>
      rw [afterAll_concat]
      have hruled := (ruled_new i config q).afterAll calls
      generalize (new i config q).afterAll calls = s at ih hruled
      cases hrun : s.running with
      | true => exact (hruled.goesOn hrun).blamesHot_after c
      | false =>
          -- the run is over: its bug stays or is reported late, and its monitors stay
          intro m message hbug
          rw [(rests_after hrun c).hotMonitors]
          rw [bug_after_of_over hrun, Option.or_eq_some_iff] at hbug
          rcases hbug with hold | ⟨-, hlate⟩
          · exact ih m message hold
          · exact absurd hlate (reported?_ne_liveness s c m message)

/-! ## What a call means to a monitor -/

theorem alarms_said_of_silent (s : Scheduler σ) {c : Call} (h : c.isNotice = false) :
    alarms (s.said c) = [] := by
  cases c with
  | notify n => cases h
  | yield t kind targetKind target => exact alarms_yieldSaid s t _
  | nextBoolean t max fairness => exact alarms_booleanSaid s t max fairness
  | nextInteger t max => exact alarms_integerSaid s t max
  | send sender target event =>
      rw [said]
      rcases sendSaid_cases s sender target event with hsaid | ⟨delivery, hsaid⟩ <;> rw [hsaid] <;>
        rfl
  | create | start | blockOnReceive | unblock | complete | failAssertion | reportAssertion
  | stop => rfl

/-- Only notices list a monitor or take it off the list. -/
theorem names_after_of_silent (s : Scheduler σ) {c : Call} (h : c.isNotice = false) :
    (s.after c).hotMonitors.map Prod.fst = s.hotMonitors.map Prod.fst := by
  have htempers := tempers_after s c
  generalize s.after c = s' at htempers
  cases htempers with
  | notifies n => cases h
  | spares silent monitors => rw [monitors]
  | dispatches silent same monitors schedule reaches current next =>
      rw [(sameNames_dispatch _ current next).monitors, monitors]

/-! ## Turning hot -/

/-- The call behind the given ones is a notice of the operation that turns the monitor from cold to
hot, and in every state since then the monitor has been hot. -/
structure TurnedHot (start : Scheduler σ) (m : String) (calls before : List Call)
    (sender : OperationId) : Prop where
  cold : m ∉ (start.afterAll before).hotMonitors.map Prod.fst
  since : ∃ rest, calls = before ++ .notify (.monitored m sender true) :: rest ∧
    ∀ passed left, rest = passed ++ left →
      m ∈ (start.afterAll (before ++ .notify (.monitored m sender true) :: passed)).hotMonitors.map
        Prod.fst

theorem TurnedHot.concat {start : Scheduler σ} {m : String} {calls before : List Call}
    {sender : OperationId} (h : start.TurnedHot m calls before sender) {c : Call}
    (hhot : m ∈ (start.afterAll (calls ++ [c])).hotMonitors.map Prod.fst) :
    start.TurnedHot m (calls ++ [c]) before sender := by
  obtain ⟨rest, rfl, hstays⟩ := h.since
  refine ⟨h.cold, rest ++ [c], by simp, fun passed left heq => ?_⟩
  rcases List.eq_nil_or_concat left with rfl | ⟨left, last, rfl⟩
  · rw [List.append_nil] at heq
    rw [← heq]
    simpa using hhot
  · rw [List.concat_eq_append, ← List.append_assoc] at heq
    exact hstays passed left (List.append_inj' heq rfl).1

theorem turnedHot_now {start : Scheduler σ} {m : String} {calls : List Call}
    {sender : OperationId} (hcold : m ∉ (start.afterAll calls).hotMonitors.map Prod.fst)
    (hhot : m ∈ (start.afterAll (calls ++ [.notify (.monitored m sender true)])).hotMonitors.map
      Prod.fst) :
    start.TurnedHot m (calls ++ [.notify (.monitored m sender true)]) calls sender := by
  refine ⟨hcold, [], rfl, fun passed left heq => ?_⟩
  obtain ⟨rfl, -⟩ := List.append_eq_nil_iff.mp heq.symm
  exact hhot

section Records

variable [Records σ]

/-- The recording of the run in progress. -/
def recording (s : Scheduler σ) : Recorder :=
  Records.recorder s.strategy

/-- The step that the recorder has entered for a hot monitor. -/
def since? (s : Scheduler σ) (m : String) : Option Nat :=
  s.recording.hotMonitors.lookup m

theorem recording_after (s : Scheduler σ) (c : Call) :
    (s.after c).recording = s.recording.hearAll (s.said c) :=
  Records.hearsAll (follows_said s c)

/-- What a call means to a monitor, on the list of the scheduler and in the table of the recorder.
-/
inductive Turns (s : Scheduler σ) (m : String) : Call → Prop
  /-- The operation says that the monitor is hot, and the run goes on. -/
  | hot (sender : OperationId)
      (listed : m ∈ (s.after (.notify (.monitored m sender true))).hotMonitors.map Prod.fst)
      (entered : (s.after (.notify (.monitored m sender true))).since? m =
        some ((s.since? m).getD
          ((s.recording.latestOf sender).getD s.recording.tree.lastIndex))) :
      Turns s m (.notify (.monitored m sender true))
  /-- The monitor is said to be cold, and the run goes on. -/
  | cold {c : Call} (unlisted : m ∉ (s.after c).hotMonitors.map Prod.fst)
      (removed : (s.after c).since? m = none) : Turns s m c
  /-- Nothing is said about the monitor, or the run is over. -/
  | silent {c : Call}
      (listed : m ∈ (s.after c).hotMonitors.map Prod.fst ↔ m ∈ s.hotMonitors.map Prod.fst)
      (entered : (s.after c).since? m = s.since? m) : Turns s m c

theorem turns_notify (s : Scheduler σ) (m : String) (n : Notice) : s.Turns m (.notify n) := by
  cases hrun : s.running with
  | false =>
      have hsame : s.after (.notify n) = s := notify_of_over hrun n
      exact .silent (by rw [hsame]) (by rw [hsame])
  | true =>
      have hmonitors : (s.after (.notify n)).hotMonitors = s.monitorsAfter n := by
        rw [after, notify_of_running hrun]
      have hrecording : (s.after (.notify n)).recording = s.recording.hear (.notice n) := by
        rw [recording_after, said, noticeSaid_of_running hrun]
        rfl
      cases n with
      | monitored name sender hot =>
          have hentered : (s.after (.notify (.monitored name sender hot))).since? m =
              (s.recording.recordMonitor name sender hot).hotMonitors.lookup m :=
            congrArg (fun r : Recorder => r.hotMonitors.lookup m) hrecording
          -- only the monitor of the notice changes, in the scheduler's list and in the recorder's
          rw [Recorder.lookup_recordMonitor] at hentered
          by_cases hname : m = name
          · subst hname
            rw [if_pos rfl] at hentered
            cases hot with
            | true =>
                refine .hot sender ?_ hentered
                rw [hmonitors]
                exact (names_insertMonitor m _ m).mpr (Or.inl rfl)
            | false =>
                refine .cold ?_ hentered
                rw [hmonitors]
                simp [monitorsAfter]
          · rw [if_neg hname] at hentered
            refine .silent ?_ hentered
            rw [hmonitors]
            cases hot with
            | true =>
                show m ∈ (insertMonitor name s.hotMonitors).map Prod.fst ↔ _
                rw [names_insertMonitor, or_iff_right hname]
            | false => simp [monitorsAfter, hname]
      | created | started | received | chosen =>
          refine .silent (by rw [hmonitors]; rfl) ?_
          rw [since?, hrecording]
          refine congrArg (List.lookup m) (Recorder.sameReport_hear ?_ s.recording).hotMonitors
          rfl

theorem turns_after (s : Scheduler σ) (m : String) (c : Call) : s.Turns m c := by
  cases hsilent : c.isNotice with
  | true =>
      cases c with
      | notify n => exact turns_notify s m n
      | create | start | yield | nextBoolean | nextInteger | blockOnReceive | unblock | complete
      | send | failAssertion | reportAssertion | stop => cases hsilent
  | false =>
      refine .silent (by rw [names_after_of_silent s hsilent]) ?_
      have hsame := Recorder.sameReport_hearAll (alarms_said_of_silent s hsilent) s.recording
      rw [since?, recording_after, hsame.hotMonitors, since?]

/-- Scheduler and recorder agree on which monitors are hot. -/
def Agrees (s : Scheduler σ) : Prop :=
  ∀ m, m ∈ s.hotMonitors.map Prod.fst ↔ (s.since? m).isSome

theorem Agrees.after {s : Scheduler σ} (h : s.Agrees) (c : Call) : (s.after c).Agrees := by
  intro m
  cases turns_after s m c with
  | hot sender listed entered => exact iff_of_true listed (by rw [entered]; rfl)
  | cold unlisted removed => exact iff_of_false unlisted (by rw [removed]; nofun)
  | silent listed entered => rw [listed, entered, h m]

/-! ## Whole runs -/

section Runs

variable {i : Nat} {config : Configuration} {q : σ} (hempty : Records.recorder q = .empty)

include hempty

theorem recording_afterAll (calls : List Call) :
    ((new i config q).afterAll calls).recording =
      Recorder.empty.hearAll ((new i config q).saidAll calls) := by
  rw [← hempty]
  exact Records.hearsAll (follows_saidAll (new i config q) calls)

theorem agrees_afterAll (calls : List Call) : ((new i config q).afterAll calls).Agrees := by
  induction calls using List.reverseRecOn with
  | nil =>
      intro m
      have hnone : ((new i config q).afterAll []).since? m = none := by
        rw [since?, recording_afterAll hempty]
        rfl
      rw [hnone]
      exact iff_of_false List.not_mem_nil nofun
  | append_singleton calls c ih =>
      rw [afterAll_concat]
      exact ih.after c

/-- The step that the recorder has for a hot monitor is the one at which the operation stood that
turned it hot for the last time. -/
theorem exists_turn {m : String} {k : Nat} {calls : List Call}
    (hk : ((new i config q).afterAll calls).since? m = some k) :
    ∃ before sender, (new i config q).TurnedHot m calls before sender ∧
      ((new i config q).afterAll before).recording.tree.StandsAt sender k := by
  induction calls using List.reverseRecOn with
  | nil =>
      rw [since?, recording_afterAll hempty] at hk
      cases hk
  | append_singleton calls c ih =>
      have hagrees : ((new i config q).afterAll calls).Agrees := agrees_afterAll hempty calls
      have hhot : m ∈ ((new i config q).afterAll (calls ++ [c])).hotMonitors.map Prod.fst :=
        (agrees_afterAll hempty (calls ++ [c]) m).mpr (by rw [hk]; rfl)
      -- what was entered before the last call has been turned hot before it
      have hearlier : ((new i config q).afterAll calls).since? m = some k →
          ∃ before sender, (new i config q).TurnedHot m (calls ++ [c]) before sender ∧
            ((new i config q).afterAll before).recording.tree.StandsAt sender k := by
        intro hold
        obtain ⟨before, sender, hturned, hstands⟩ := ih hold
        exact ⟨before, sender, hturned.concat hhot, hstands⟩
      rw [afterAll_concat] at hk
      cases turns_after ((new i config q).afterAll calls) m c with
      | hot sender listed entered =>
          rw [hk, Option.some.injEq] at entered
          cases hsince : ((new i config q).afterAll calls).since? m with
          | some earlier =>
              rw [hsince, Option.getD_some] at entered
              exact hearlier (entered ▸ hsince)
          | none =>
              rw [hsince, Option.getD_none] at entered
              have hcold : m ∉ ((new i config q).afterAll calls).hotMonitors.map Prod.fst :=
                fun hmem => by simpa [hsince] using (hagrees m).mp hmem
              obtain ⟨cut, haccounts⟩ := Recorder.accounts_empty.hearAll
                ((new i config q).saidAll calls)
              rw [← recording_afterAll hempty] at haccounts
              exact ⟨calls, sender, turnedHot_now hcold hhot, entered ▸ haccounts.standsAt sender⟩
      | cold unlisted removed =>
          rw [removed] at hk
          cases hk
      | silent listed entered => exact hearlier (entered ▸ hk)

end Runs

/-! ## The result of a run -/

/-- The recording with the result of the run. -/
def finalRecording (s : Scheduler σ) : Recorder :=
  s.recording.recordEnd (s.outcome.bug.map (·.kind))

/-- The tree blames the bug of the run on the right step. -/
structure Blames (start : Scheduler σ) (calls : List Call) (t : EventTree) : Prop where
  /-- The monitor of a liveness bug has an entry, made where the operation stood that turned it hot
  for the last time. The tree of that moment has grown into this one. -/
  liveness : ∀ m message, (start.afterAll calls).bug = some ⟨.liveness m, message⟩ →
    ∃ k, t.bugStep = some k ∧ (start.afterAll calls).since? m = some k ∧
      ∃ before sender, start.TurnedHot m calls before sender ∧
        (start.afterAll before).recording.tree.StandsAt sender k ∧
        (start.afterAll before).recording.tree.Extends t
  /-- Any other bug lies at the last step. -/
  other : ∀ bug, (start.afterAll calls).bug = some bug → (∀ m, bug.kind ≠ .liveness m) →
    ∃ k, t.bugStep = some k ∧ k + 1 = t.size
  bugFree : (start.afterAll calls).bug = none → t.bugStep = none
  monitor : ∀ m, t.livenessMonitor = some m ↔
    ∃ message, (start.afterAll calls).bug = some ⟨.liveness m, message⟩

/-- The tree of an earlier moment of a run has grown into the one with the result. -/
theorem extends_finalRecording {i : Nat} {config : Configuration} {q : σ}
    (hempty : Records.recorder q = .empty) (before rest : List Call) :
    ((new i config q).afterAll before).recording.tree.Extends
      ((new i config q).afterAll (before ++ rest)).finalRecording.tree := by
  have hsound : ((new i config q).afterAll before).recording.Sound := by
    rw [recording_afterAll hempty]
    exact (Recorder.sound_empty.hearAll _).1
  have hgrown : ((new i config q).afterAll (before ++ rest)).recording =
      ((new i config q).afterAll before).recording.hearAll
        (((new i config q).afterAll before).saidAll rest) := by
    rw [afterAll_append]
    exact Records.hearsAll (follows_saidAll _ rest)
  obtain ⟨hsteps, hwithheld⟩ := Recorder.same_recordEnd
    ((new i config q).afterAll (before ++ rest)).recording
    (((new i config q).afterAll (before ++ rest)).outcome.bug.map (·.kind))
  have hextends := (hsound.hearAll (((new i config q).afterAll before).saidAll rest)).2
  rw [← hgrown] at hextends
  exact hextends.trans (.of_eq hsteps hwithheld)

theorem blames_finalRecording {i : Nat} {config : Configuration} {q : σ}
    (hempty : Records.recorder q = .empty) (calls : List Call) :
    (new i config q).Blames calls ((new i config q).afterAll calls).finalRecording.tree := by
  have hagrees : ((new i config q).afterAll calls).Agrees := agrees_afterAll hempty calls
  have hblames := blamesHot_afterAll i config q calls
  have hrecording : ((new i config q).afterAll calls).recording =
      Recorder.empty.hearAll ((new i config q).saidAll calls) := recording_afterAll hempty calls
  have hundecided := Recorder.undecided_empty.hearAll ((new i config q).saidAll calls)
  obtain ⟨cut, haccounts⟩ := Recorder.accounts_empty.hearAll ((new i config q).saidAll calls)
  rw [← hrecording] at hundecided haccounts
  refine ⟨fun m message hbug => ?_, fun bug hbug hkind => ?_, fun hbug => ?_, fun m => ?_⟩
  · -- a hot monitor is blamed on the step at which it turned hot, and steps stay where they are
    obtain ⟨k, hk⟩ := Option.isSome_iff_exists.mp ((hagrees m).mp (hblames m message hbug))
    obtain ⟨before, sender, hturned, hstands⟩ := exists_turn hempty hk
    refine ⟨k, ?_, hk, before, sender, hturned, hstands, ?_⟩
    · have hend : ((new i config q).afterAll calls).outcome.bug.map (·.kind) =
          some (.liveness m) := congrArg (Option.map (·.kind)) hbug
      rw [finalRecording, hend]
      exact Recorder.bugStep_recordEnd_of_hot hk
    · obtain ⟨rest, hcalls, -⟩ := hturned.since
      rw [hcalls]
      exact extends_finalRecording hempty before _
  · -- any other bug is blamed on the last step
    have hend : ((new i config q).afterAll calls).outcome.bug.map (·.kind) = some bug.kind :=
      congrArg (Option.map (·.kind)) hbug
    refine ⟨((new i config q).afterAll calls).recording.tree.lastIndex, ?_, ?_⟩
    · rw [finalRecording, hend]
      exact Recorder.bugStep_recordEnd_of_other _ hkind
    · rw [finalRecording, Recorder.size_recordEnd]
      exact Nat.sub_add_cancel haccounts.size_pos
  · have hend : ((new i config q).afterAll calls).outcome.bug.map (·.kind) = none :=
      congrArg (Option.map (·.kind)) hbug
    rw [finalRecording, hend]
    exact hundecided.bugStep
  · rw [finalRecording, hundecided.livenessMonitor_recordEnd]
    show ((new i config q).afterAll calls).bug.map (·.kind) = _ ↔ _
    rw [Option.map_eq_some_iff]
    constructor
    · rintro ⟨⟨kind, message⟩, hbug, rfl⟩
      exact ⟨message, hbug⟩
    · rintro ⟨message, hbug⟩
      exact ⟨_, hbug, rfl⟩

end Records

/-- Scheduler and recorder agree on the hot monitors, and the right step is blamed. Whatever calls
are made to a new scheduler, under a strategy that begins to record a run or under a minimizing one
at the start of an iteration, the two list the same hot monitors in every state. The tree that the
end of the run leaves behind, or hands to the editor, blames a liveness bug on the step at which the
operation stood that turned the monitor hot for the last time, and any other bug on the last step;
and it names a monitor if and only if the bug is a liveness bug of it. -/
theorem liveness_blamed_on_turn {σ τ : Type} [Strategy σ] [Strategy τ] (i : Nat)
    (config : Configuration) (inner : σ) (last : Option RunSummary) (x : Minimization.Session τ)
    (calls : List Call) :
    (let start := new i config (⟨inner, .empty, last⟩ : Recorded σ)
      let s := start.afterAll calls
      s.Agrees ∧ (Strategy.onEnd s.strategy s.outcome).2.lastSummary =
        some s.finalRecording.summary ∧ start.Blames calls s.finalRecording.tree) ∧
    (let start := new i config x.plan
      let s := start.afterAll calls
      s.Agrees ∧ (Strategy.onEnd s.strategy s.outcome).2.editor =
        (s.strategy.editor.endRun (s.outcome.bug.map (·.kind)) s.finalRecording.tree).2 ∧
      start.Blames calls s.finalRecording.tree) := by
  have hplan : Records.recorder x.plan = .empty := x.plan_facts.1
  refine ⟨⟨agrees_afterAll rfl calls, rfl, blames_finalRecording rfl calls⟩,
    agrees_afterAll hplan calls, ?_, blames_finalRecording hplan calls⟩
  exact (Minimization.Session.onEnd_facts rfl).2.2

/-- A monitor turns hot, cold and hot again, and overheats at the second of two decisions. -/
def secondTurnCalls : List Call :=
  [.create ⟨0⟩ "harness", .notify (.monitored "M" ⟨0⟩ true), .notify (.created ⟨0⟩ ⟨1⟩),
    .notify (.monitored "M" ⟨0⟩ false), .notify (.started ⟨1⟩ none),
    .notify (.monitored "M" ⟨0⟩ true), .yield ⟨7, ⟨0⟩⟩ .yield .operation ⟨0⟩,
    .notify (.created ⟨0⟩ ⟨2⟩), .yield ⟨7, ⟨0⟩⟩ .yield .operation ⟨0⟩]

/-- The second turn is at the creation, which is neither the first nor the last of the four steps.
-/
theorem liveness_blamed_on_turn_of_secondTurn :
    let config : Configuration := { livenessThreshold := 1 }
    let x : Minimization.Session (Replay RandomWalk) :=
      .ofSchedule #[] {} config {} .always (some twoTurns)
    let recorded := new 7 config (Recorded.ofStrategy twoTurns)
    let minimizing := new 7 config x.plan
    let bug : Bug := ⟨.liveness "M", overheated "M"⟩
    ((recorded.afterAll secondTurnCalls).bug = some bug ∧
      (recorded.afterAll secondTurnCalls).finalRecording.tree.size = 4 ∧
      (recorded.afterAll secondTurnCalls).finalRecording.tree.bugStep = some 1 ∧
      ∃ before sender, recorded.TurnedHot "M" secondTurnCalls before sender ∧
        (recorded.afterAll before).recording.tree.StandsAt sender 1) ∧
    (minimizing.afterAll secondTurnCalls).bug = some bug ∧
      (minimizing.afterAll secondTurnCalls).finalRecording.tree.bugStep = some 1 ∧
      ∃ before sender, minimizing.TurnedHot "M" secondTurnCalls before sender ∧
        (minimizing.afterAll before).recording.tree.StandsAt sender 1 := by
  intro config x recorded minimizing bug
  have hblames := liveness_blamed_on_turn 7 config twoTurns none x secondTurnCalls
  have hrecorded : recorded.Blames secondTurnCalls
      (recorded.afterAll secondTurnCalls).finalRecording.tree := hblames.1.2.2
  have hminimizing : minimizing.Blames secondTurnCalls
      (minimizing.afterAll secondTurnCalls).finalRecording.tree := hblames.2.2.2
  have hbug : (recorded.afterAll secondTurnCalls).bug = some bug := by decide +kernel
  have hbug' : (minimizing.afterAll secondTurnCalls).bug = some bug := by decide +kernel
  have hstep : (recorded.afterAll secondTurnCalls).finalRecording.tree.bugStep = some 1 := by
    decide +kernel
  have hstep' : (minimizing.afterAll secondTurnCalls).finalRecording.tree.bugStep = some 1 := by
    decide +kernel
  obtain ⟨k, hk, -, before, sender, hturned, hstands, -⟩ := hrecorded.liveness _ _ hbug
  obtain ⟨k', hk', -, before', sender', hturned', hstands', -⟩ := hminimizing.liveness _ _ hbug'
  obtain rfl : 1 = k := Option.some.inj (hstep.symm.trans hk)
  obtain rfl : 1 = k' := Option.some.inj (hstep'.symm.trans hk')
  exact ⟨⟨hbug, by decide +kernel, hstep, before, sender, hturned, hstands⟩, hbug', hstep',
    before', sender', hturned', hstands'⟩

end Scheduler

end Interleave
