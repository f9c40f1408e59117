import Interleave.Proofs.Scheduler.Yielding
import Mathlib.Data.List.Induction

/-!
# Sequences of calls

A `Call` is a call of a scheduler as a value, with whatever token or identity the caller presents,
so that a whole history of calls is a list. A call has its dialogue (`Scheduler.said`), is a passage
(`Scheduler.passage_after`) and appends to the schedule what its dialogue logs
(`Scheduler.schedule_extend_said`). Only a suspension point logs anything, and what it may log is
what `Scheduler.Enters` says: an operation that is registered and enabled, a Boolean, or an integer
in range, at the request of the operation in control.
-/

namespace Interleave

namespace Scheduler

/-- A call that may change the state of a scheduler. -/
inductive Call where
  | create (id : OperationId) (name : String)
  | start (t : Token)
  | yield (t : Token) (kind : ActionKind) (targetKind : TargetKind) (target : OperationId)
  | nextBoolean (t : Token) (max : UInt32) (fairness : Option String)
  | nextInteger (t : Token) (max : UInt32)
  | blockOnReceive (t : Token)
  | unblock (id : OperationId)
  | complete (t : Token)
  | notify (n : Notice)
  | send (sender target : OperationId) (event : Event)
  | failAssertion (text : String)
  | reportAssertion (text : String)
  | stop
  deriving DecidableEq

/-- The token presented at a suspension point. -/
def Call.suspends? : Call → Option Token
  | .yield t _ _ _ | .nextBoolean t _ _ | .nextInteger t _ => some t
  | _ => none

variable {σ : Type}

/-- The token is the scheduler's own and that of the operation in control. -/
structure Admits (s : Scheduler σ) (t : Token) : Prop where
  own : t.scheduler = s.id
  registered : (s.slot? t.operation).isSome
  scheduled : s.scheduled = some t.operation

/-- The call is made by the operation in control, and the decision is a legal one for it. -/
inductive Enters (s : Scheduler σ) : Call → Decision → Prop
  | schedule {t : Token} {kind : ActionKind} {targetKind : TargetKind} {target : OperationId}
      {slot : Slot} (admits : s.Admits t) (mem : slot ∈ s.slots) (enabled : slot.enabled = true) :
      Enters s (.yield t kind targetKind target) (.schedule slot.id)
  | boolean {t : Token} {max : UInt32} {b : Bool} (admits : s.Admits t) :
      Enters s (.nextBoolean t max none) (.boolean b)
  | fairBoolean {t : Token} {max : UInt32} {uid : String} {b : Bool} (admits : s.Admits t) :
      Enters s (.nextBoolean t max (some uid)) (.fairBoolean uid b)
  | integer {t : Token} {max n : UInt32} (admits : s.Admits t)
      (below : n.toNat < Nat.max 1 max.toNat) :
      Enters s (.nextInteger t max) (.integer n)

theorem admits_iff {s : Scheduler σ} {t : Token} : s.Admits t ↔ s.misuse? t = none := by
  constructor
  · intro h
    exact misuse?_eq_none h.own (Option.isSome_iff_ne_none.mp h.registered) h.scheduled
  · intro h
    unfold misuse? at h
    split at h
    · cases h
    · rename_i hown
      cases hslot : s.slot? t.operation with
      | none => simp [hslot] at h
      | some slot =>
          cases hscheduled : s.scheduled with
          | none => simp [hslot, hscheduled] at h
          | some active =>
              have hactive : active = t.operation := by
                by_contra hne
                simp [hslot, hscheduled, hne] at h
              exact ⟨not_not.mp hown, by simp [hslot], by rw [hscheduled, hactive]⟩

/-- A value that passes for one below the bound is so, where a bound of 0 counts as 1. -/
theorem toNat_lt_of_isInRange {n max : UInt32} (h : isInRange n max = true) :
    n.toNat < Nat.max 1 max.toNat := by
  unfold isInRange at h
  simp only [Bool.or_eq_true, decide_eq_true_eq, Bool.and_eq_true] at h
  rcases h with hlt | ⟨-, rfl⟩
  · exact Nat.lt_of_lt_of_le (UInt32.lt_iff_toNat_lt.mp hlt) (Nat.le_max_right _ _)
  · exact Nat.lt_of_lt_of_le Nat.zero_lt_one (Nat.le_max_left _ _)

theorem schedule_create (s : Scheduler σ) (id : OperationId) (name : String) :
    (s.create id name).2.schedule = s.schedule := by
  rcases create_cases s id name with hknown | ⟨-, hfresh⟩
  · rw [hknown]
  · rw [hfresh]
    rfl

theorem schedule_start (s : Scheduler σ) (t : Token) : (s.start t).2.schedule = s.schedule := by
  rcases start_cases s t with ⟨slot, -, -, hstart⟩ | ⟨-, hfail⟩
  · rw [hstart]
    rfl
  · rw [hfail]
    rfl

/-- An operation shown as enabled has an enabled slot: a declaration changes neither identities nor
what is enabled. -/
theorem exists_slot_of_shown {s : Scheduler σ} {t : Token} {next : Declared} {d : OperationId}
    (h : ((s.shown t next).any fun op => op.id = d && op.enabled) = true) :
    ∃ slot ∈ s.slots, slot.id = d ∧ slot.enabled = true := by
  simp only [List.any_eq_true, Bool.and_eq_true, decide_eq_true_eq] at h
  obtain ⟨op, hmem, hid, henabled⟩ := h
  simp only [shown, snapshots, updateSlot, List.map_map, List.mem_map] at hmem
  obtain ⟨slot, hslot, rfl⟩ := hmem
  refine ⟨slot, hslot, ?_⟩
  by_cases hcaller : slot.id = t.operation
  · simp only [Function.comp_apply, if_pos hcaller] at hid henabled
    exact ⟨hid, henabled⟩
  · simp only [Function.comp_apply, if_neg hcaller] at hid henabled
    exact ⟨hid, henabled⟩

variable [Strategy σ]

/-- The state after a call. -/
def after (s : Scheduler σ) : Call → Scheduler σ
  | .create id name => (s.create id name).2
  | .start t => (s.start t).2
  | .yield t kind targetKind target => (s.yield t kind targetKind target).2
  | .nextBoolean t max fairness => (s.nextBoolean t max fairness).2
  | .nextInteger t max => (s.nextInteger t max).2
  | .blockOnReceive t => s.blockOnReceive t
  | .unblock id => s.unblock id
  | .complete t => s.complete t
  | .notify n => s.notify n
  | .send sender target event => (s.send sender target event).2
  | .failAssertion text => s.failAssertion text
  | .reportAssertion text => s.reportAssertion text
  | .stop => s.stop

/-- The dialogue of a call. -/
def said (s : Scheduler σ) : Call → List Exchange
  | .yield t kind targetKind target => s.yieldSaid t ⟨kind, targetKind, target, none⟩
  | .nextBoolean t max fairness => s.booleanSaid t max fairness
  | .nextInteger t max => s.integerSaid t max
  | .notify n => s.noticeSaid n
  | .send sender target event => s.sendSaid sender target event
  | .create _ _ | .start _ | .blockOnReceive _ | .unblock _ | .complete _ | .failAssertion _
  | .reportAssertion _ | .stop => []

/-- The state after calls in a row. -/
def afterAll (s : Scheduler σ) (calls : List Call) : Scheduler σ :=
  calls.foldl after s

@[simp]
theorem afterAll_nil (s : Scheduler σ) : s.afterAll [] = s := rfl

theorem afterAll_append (s : Scheduler σ) (calls calls' : List Call) :
    s.afterAll (calls ++ calls') = (s.afterAll calls).afterAll calls' :=
  List.foldl_append

theorem afterAll_concat (s : Scheduler σ) (calls : List Call) (c : Call) :
    s.afterAll (calls ++ [c]) = (s.afterAll calls).after c :=
  s.afterAll_append calls [c]

/-- On the way through calls in a row one is made in a state in which it satisfies the predicate. -/
def Meets (s : Scheduler σ) (P : Scheduler σ → Call → Prop) (calls : List Call) : Prop :=
  ∃ before c rest, calls = before ++ c :: rest ∧ P (s.afterAll before) c

@[simp]
theorem not_meets_nil (s : Scheduler σ) (P : Scheduler σ → Call → Prop) : ¬s.Meets P [] := by
  rintro ⟨before, c, rest, hcalls, -⟩
  simp at hcalls

theorem meets_concat {s : Scheduler σ} {P : Scheduler σ → Call → Prop} {calls : List Call}
    {c : Call} : s.Meets P (calls ++ [c]) ↔ s.Meets P calls ∨ P (s.afterAll calls) c := by
  constructor
  · rintro ⟨before, c', rest, hcalls, hmet⟩
    rcases List.eq_nil_or_concat rest with rfl | ⟨rest, last, rfl⟩
    · obtain ⟨rfl, hlast⟩ := List.append_inj' hcalls rfl
      obtain rfl := List.singleton_inj.mp hlast
      exact Or.inr hmet
    · rw [List.concat_eq_append, ← List.cons_append, ← List.append_assoc] at hcalls
      obtain ⟨rfl, -⟩ := List.append_inj' hcalls rfl
      exact Or.inl ⟨before, c', rest, rfl, hmet⟩
  · rintro (⟨before, c', rest, rfl, hmet⟩ | hmet)
    · exact ⟨before, c', rest ++ [c], by simp, hmet⟩
    · exact ⟨calls, c, [], rfl, hmet⟩

/-- The dialogue of calls in a row. -/
def saidAll (s : Scheduler σ) : List Call → List Exchange
  | [] => []
  | c :: calls => s.said c ++ (s.after c).saidAll calls

theorem saidAll_append (s : Scheduler σ) (calls calls' : List Call) :
    s.saidAll (calls ++ calls') = s.saidAll calls ++ (s.afterAll calls).saidAll calls' := by
  induction calls generalizing s with
  | nil => rfl
  | cons c calls ih =>
      simp only [List.cons_append, saidAll, ih, List.append_assoc]
      rfl

/-- Calls in a row lead from one state to another, with the given dialogue. -/
def Makes (s : Scheduler σ) (l : List Exchange) (s' : Scheduler σ) : Prop :=
  ∃ calls, s' = s.afterAll calls ∧ l = s.saidAll calls

theorem Makes.refl (s : Scheduler σ) : s.Makes [] s :=
  ⟨[], rfl, rfl⟩

theorem Makes.call (s : Scheduler σ) (c : Call) : s.Makes (s.said c) (s.after c) :=
  ⟨[c], rfl, (List.append_nil _).symm⟩

theorem Makes.trans {s s' s'' : Scheduler σ} {l l' : List Exchange} (h : s.Makes l s')
    (h' : s'.Makes l' s'') : s.Makes (l ++ l') s'' := by
  obtain ⟨calls, rfl, rfl⟩ := h
  obtain ⟨calls', rfl, rfl⟩ := h'
  exact ⟨calls ++ calls', (s.afterAll_append calls calls').symm,
    (s.saidAll_append calls calls').symm⟩

/-- Whatever a call keeps, with its dialogue appended to the one before it, is kept by calls in a
row. -/
theorem Makes.induction {P : List Exchange → Scheduler σ → Prop}
    (step : ∀ l s c, P l s → P (l ++ s.said c) (s.after c)) {s s' : Scheduler σ}
    {l l' : List Exchange} (h : s.Makes l' s') (hs : P l s) : P (l ++ l') s' := by
  obtain ⟨calls, rfl, rfl⟩ := h
  induction calls generalizing s l with
  | nil => simpa [saidAll] using hs
  | cons c calls ih =>
      have hrest := ih (step l s c hs)
      rwa [List.append_assoc] at hrest

/-! ## What a call says -/

/-- A call is a passage. -/
theorem passage_after (s : Scheduler σ) (c : Call) : s.Passage (s.said c) (s.after c) := by
  cases c with
  | create id name => exact (quiet_create s id name).passage
  | start t => exact (quiet_start s t).passage
  | yield t kind targetKind target => exact passage_yield s t kind targetKind target
  | nextBoolean t max fairness => exact passage_nextBoolean s t max fairness
  | nextInteger t max => exact passage_nextInteger s t max
  | blockOnReceive t =>
      have hquiet : s.Quiet (s.blockOnReceive t) := quiet_updateSlot s t.operation fun _ => rfl
      exact hquiet.passage
  | unblock id => exact (quiet_unblock s id).passage
  | complete t =>
      have hquiet : s.Quiet (s.complete t) := quiet_updateSlot s t.operation fun _ => rfl
      exact hquiet.passage
  | notify n => exact passage_notify s n
  | send sender target event => exact passage_send s sender target event
  | failAssertion text => exact (quiet_fail s _ _).passage
  | reportAssertion text => exact (quiet_reportAssertion s text).passage
  | stop => exact (quiet_stop s).passage

/-- Calls in a row are a passage. -/
theorem Makes.passage {s s' : Scheduler σ} {l : List Exchange} (h : s.Makes l s') :
    s.Passage l s' :=
  h.induction (P := fun l s' => s.Passage l s') (l := [])
    (fun _ s' c hpassage => hpassage.trans (passage_after s' c)) (Quiet.refl s).passage

/-- The strategy follows the dialogue of a call. -/
theorem follows_said (s : Scheduler σ) (c : Call) :
    Follows s.strategy (s.said c) (s.after c).strategy := by
  cases c with
  | create id name => exact strategy_create s id name
  | start t => exact strategy_start s t
  | yield t kind targetKind target => exact follows_yield s t kind targetKind target
  | nextBoolean t max fairness => exact follows_nextBoolean s t max fairness
  | nextInteger t max => exact follows_nextInteger s t max
  | notify n => exact follows_notify s n
  | send sender target event => exact follows_send s sender target event
  | blockOnReceive _ | unblock _ | complete _ | failAssertion _ | reportAssertion _ | stop => rfl

/-- The strategy follows the dialogue of calls in a row. -/
theorem follows_saidAll (s : Scheduler σ) (calls : List Call) :
    Follows s.strategy (s.saidAll calls) (s.afterAll calls).strategy := by
  induction calls generalizing s with
  | nil => rfl
  | cons c calls ih => exact follows_append.mpr ⟨_, follows_said s c, ih (s.after c)⟩

/-! ## What a call logs -/

theorem schedule_yield (s : Scheduler σ) (t : Token) (kind : ActionKind) (targetKind : TargetKind)
    (target : OperationId) :
    (s.yield t kind targetKind target).2.schedule =
      s.schedule.extend (s.yieldSaid t ⟨kind, targetKind, target, none⟩) :=
  congrArg (·.2.schedule) (yield_rehost s (Equiv.refl Nat) s.schedule t kind targetKind target
    (follows_yield s t kind targetKind target))

theorem schedule_nextBoolean (s : Scheduler σ) (t : Token) (max : UInt32)
    (fairness : Option String) :
    (s.nextBoolean t max fairness).2.schedule = s.schedule.extend (s.booleanSaid t max fairness) :=
  congrArg (·.2.schedule) (nextBoolean_rehost s (Equiv.refl Nat) s.schedule t max fairness
    (follows_nextBoolean s t max fairness))

theorem schedule_nextInteger (s : Scheduler σ) (t : Token) (max : UInt32) :
    (s.nextInteger t max).2.schedule = s.schedule.extend (s.integerSaid t max) :=
  congrArg (·.2.schedule) (nextInteger_rehost s (Equiv.refl Nat) s.schedule t max
    (follows_nextInteger s t max))

theorem schedule_notify (s : Scheduler σ) (n : Notice) :
    (s.notify n).schedule = s.schedule.extend (s.noticeSaid n) := by
  rw [s.schedule.extend_of_logged_eq_nil (logged_noticeSaid s n)]
  cases hrun : s.running with
  | true => rw [notify_of_running hrun]
  | false => rw [notify_of_over hrun]

theorem schedule_send (s : Scheduler σ) (sender target : OperationId) (event : Event) :
    (s.send sender target event).2.schedule =
      s.schedule.extend (s.sendSaid sender target event) := by
  rw [s.schedule.extend_of_logged_eq_nil (logged_sendSaid s sender target event)]
  cases hrun : s.running with
  | true => rw [send_of_running hrun]
  | false => rw [send_of_over hrun]

/-- A call appends to the schedule what its dialogue logs. -/
theorem schedule_extend_said (s : Scheduler σ) (c : Call) :
    (s.after c).schedule = s.schedule.extend (s.said c) := by
  cases c with
  | create id name => exact (schedule_create s id name).trans (s.schedule.extend_nil).symm
  | start t => exact (schedule_start s t).trans (s.schedule.extend_nil).symm
  | yield t kind targetKind target => exact schedule_yield s t kind targetKind target
  | nextBoolean t max fairness => exact schedule_nextBoolean s t max fairness
  | nextInteger t max => exact schedule_nextInteger s t max
  | notify n => exact schedule_notify s n
  | send sender target event => exact schedule_send s sender target event
  | blockOnReceive _ | unblock _ | complete _ | failAssertion _ | reportAssertion _ | stop =>
      exact (s.schedule.extend_nil).symm

/-- Calls in a row append to the schedule what their dialogue logs. -/
theorem schedule_extend_saidAll (s : Scheduler σ) (calls : List Call) :
    (s.afterAll calls).schedule = s.schedule.extend (s.saidAll calls) := by
  induction calls generalizing s with
  | nil => exact (s.schedule.extend_nil).symm
  | cons c calls ih =>
      show ((s.after c).afterAll calls).schedule = s.schedule.extend (s.saidAll (c :: calls))
      rw [ih, schedule_extend_said, saidAll, Schedule.extend_append]

theorem logged_yieldSaid (s : Scheduler σ) (t : Token) (next : Declared) :
    logged (s.yieldSaid t next) = [] ∨
      ∃ d, s.refusal? t = none ∧
        ((s.shown t next).any fun op => op.id = d && op.enabled) = true ∧
        logged (s.yieldSaid t next) = [.schedule d] := by
  cases href : s.refusal? t with
  | some s' =>
      rw [yieldSaid_of_refused href]
      exact Or.inl (logged_admission s t)
  | none =>
      rw [yieldSaid_of_admitted href, logged_append, logged_admission, List.nil_append]
      -- only a legal answer is logged
      rcases (s.asked t next).1 with e | _ | d
      · exact Or.inl rfl
      · exact Or.inl rfl
      · by_cases hlegal : ((s.shown t next).any fun op => op.id = d && op.enabled) = true
        · refine Or.inr ⟨d, rfl, hlegal, ?_⟩
          rw [resolveSaid_of_legal hlegal]
          rfl
        · left
          rw [resolveSaid_of_illegal hlegal]
          rfl

theorem logged_valueSaid {α : Type} (s : Scheduler σ) (t : Token) (request : σ → Answer α × σ)
    (exchange : Answer α → Exchange) (hunlogged : ∀ answer, (exchange answer).logged? = none)
    (check : Answer α → Answer α) (toChoice : α → Choice) (toDecision : α → Decision) :
    logged (s.valueSaid t request exchange check toChoice toDecision) = [] ∨
      ∃ value, s.refusal? t = none ∧ check (request s.strategy).1 = .ok (some value) ∧
        logged (s.valueSaid t request exchange check toChoice toDecision) =
          [toDecision value] := by
  have hexchange : ∀ answer l, logged (exchange answer :: l) = logged l := fun answer l =>
    List.filterMap_cons_none (hunlogged answer)
  cases href : s.refusal? t with
  | some s' =>
      rw [valueSaid_of_refused href]
      exact Or.inl (logged_admission s t)
  | none =>
      rw [valueSaid_of_admitted href, logged_append, logged_admission, List.nil_append, hexchange]
      rcases check (request s.strategy).1 with e | _ | value
      · exact Or.inl rfl
      · exact Or.inl rfl
      · exact Or.inr ⟨value, rfl, rfl, rfl⟩

theorem admits_of_admitted {s : Scheduler σ} {t : Token} (h : s.refusal? t = none) : s.Admits t :=
  admits_iff.mpr (admitted_of_refusal?_eq_none h).2.1

theorem value_of_checkRange {max n : UInt32} {answer : Answer UInt32}
    (h : checkRange max answer = .ok (some n)) : isInRange n max = true := by
  rcases answer with e | _ | n'
  · cases h
  · cases h
  · simp only [checkRange] at h
    split at h
    · rename_i hrange
      cases h
      exact hrange
    · cases h

/-- A call logs at most one decision, and only a legal one at the request of the operation in
control. -/
theorem logged_said (s : Scheduler σ) (c : Call) :
    logged (s.said c) = [] ∨ ∃ d, logged (s.said c) = [d] ∧ s.Enters c d := by
  cases c with
  | yield t kind targetKind target =>
      rcases logged_yieldSaid s t ⟨kind, targetKind, target, none⟩ with
        hnone | ⟨d, href, hlegal, hlogged⟩
      · exact Or.inl hnone
      · obtain ⟨slot, hmem, rfl, henabled⟩ := exists_slot_of_shown hlegal
        exact Or.inr ⟨.schedule slot.id, hlogged,
          .schedule (admits_of_admitted href) hmem henabled⟩
  | nextBoolean t max fairness =>
      rcases logged_valueSaid s t (Strategy.nextBoolean · max) (.boolean max)
        (fun _ => rfl) (fun a => a) .boolean (booleanDecision fairness) with
        hnone | ⟨b, href, -, hlogged⟩
      · exact Or.inl hnone
      · refine Or.inr ⟨booleanDecision fairness b, hlogged, ?_⟩
        cases fairness with
        | none => exact .boolean (admits_of_admitted href)
        | some uid => exact .fairBoolean (admits_of_admitted href)
  | nextInteger t max =>
      rcases logged_valueSaid s t (Strategy.nextInteger · max) (.integer max)
        (fun _ => rfl) (checkRange max) .integer .integer with hnone | ⟨n, href, hcheck, hlogged⟩
      · exact Or.inl hnone
      · exact Or.inr ⟨.integer n, hlogged, .integer (admits_of_admitted href)
          (toNat_lt_of_isInRange (value_of_checkRange hcheck))⟩
  | notify n => exact Or.inl (logged_noticeSaid s n)
  | send sender target event => exact Or.inl (logged_sendSaid s sender target event)
  | create _ _ | start _ | blockOnReceive _ | unblock _ | complete _ | failAssertion _
  | reportAssertion _ | stop => exact Or.inl rfl

/-- A call leaves the schedule as it is or appends one legal decision to it. -/
theorem schedule_after (s : Scheduler σ) (c : Call) :
    (s.after c).schedule = s.schedule ∨
      ∃ d, (s.after c).schedule = s.schedule.push d ∧ s.Enters c d := by
  rw [schedule_extend_said]
  rcases logged_said s c with hnone | ⟨d, hlogged, henters⟩
  · exact Or.inl (Schedule.extend_of_logged_eq_nil _ hnone)
  · exact Or.inr ⟨d, by simp [Schedule.extend, hlogged], henters⟩

/-- Every decision in the schedule was appended by one of the calls, which could make it. -/
theorem exists_call_of_schedule {s : Scheduler σ} (hempty : s.schedule = #[]) (calls : List Call)
    {k : Nat} {d : Decision} (hk : (s.afterAll calls).schedule[k]? = some d) :
    ∃ before c rest, calls = before ++ c :: rest ∧
      (s.afterAll before).schedule.size = k ∧
      ((s.afterAll before).after c).schedule = (s.afterAll before).schedule.push d ∧
      (s.afterAll before).Enters c d := by
  -- the last call appended the decision, or it stood in the schedule before
  induction calls using List.reverseRecOn with
  | nil => simp [hempty] at hk
  | append_singleton calls c ih =>
      rw [afterAll_concat] at hk
      have hplace : (s.afterAll calls).schedule[k]? = some d ∨
          ((s.afterAll calls).schedule.size = k ∧
            ((s.afterAll calls).after c).schedule = (s.afterAll calls).schedule.push d ∧
            (s.afterAll calls).Enters c d) := by
        rcases schedule_after (s.afterAll calls) c with hsame | ⟨d', hpush, henters⟩
        · exact Or.inl (hsame ▸ hk)
        · rw [hpush, Array.getElem?_push] at hk
          split at hk
          · rename_i hlast
            obtain rfl := Option.some.inj hk
            exact Or.inr ⟨hlast.symm, hpush, henters⟩
          · exact Or.inl hk
      rcases hplace with hearlier | hmade
      · obtain ⟨before, c', rest, rfl, hmade⟩ := ih hearlier
        exact ⟨before, c', rest ++ [c], by simp, hmade⟩
      · exact ⟨calls, c, [], rfl, hmade⟩

end Scheduler

end Interleave
