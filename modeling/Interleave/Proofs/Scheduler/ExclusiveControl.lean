import Interleave.Proofs.Scheduler.Calling
import Interleave.Strategy.Scripted
import Mathlib.Data.List.Nodup

/-!
# Exclusive control

Whatever a strategy answers, and whatever calls are made with whatever tokens, at most one operation
is in control. Control is read off three parts of a state: the operation that is scheduled, the
identities with their activity (`Scheduler.flags`) and whether a bug has ended the run. A call does
one of four things to them (`Scheduler.Moves`): it ends the run, leaves them alone, registers an
operation, or hands control from the scheduled operation to another one. Each keeps a running
scheduler under control (`Scheduler.Exclusive`). With the calls' own log this gives
`control_is_exclusive`.
-/

namespace Interleave

namespace Scheduler

variable {σ : Type}

/-- The identities of the operations and whether they are active. -/
def flags (s : Scheduler σ) : List (OperationId × Bool) :=
  s.slots.map fun slot => (slot.id, slot.active)

/-- No bug has been found, and of the operations, if there are any, the scheduled one is active and
no other. -/
structure Controlled (s : Scheduler σ) : Prop where
  bug : s.bug = none
  scheduled : s.flags ≠ [] → ∃ a, s.scheduled = some a ∧ (a, true) ∈ s.flags ∧
    ∀ id, (id, true) ∈ s.flags → id = a

/-- Operations are distinct, and one of them is in control while the run goes on. -/
structure Exclusive (s : Scheduler σ) : Prop where
  distinct : (s.slots.map Slot.id).Nodup
  controlled : s.running = true → s.Controlled

/-- Nothing that control is read off has changed. -/
structure KeepsControl (s s' : Scheduler σ) : Prop where
  id : s'.id = s.id
  running : s'.running = s.running
  bug : s'.bug = s.bug
  scheduled : s'.scheduled = s.scheduled
  flags : s'.flags = s.flags

/-- What a call can do to control. -/
inductive Moves (s : Scheduler σ) : Scheduler σ → Prop
  /-- The run is over. -/
  | ends {s' : Scheduler σ} (id : s'.id = s.id) (ended : s'.running = false) : Moves s s'
  /-- Control stays as it is. -/
  | keeps {s' : Scheduler σ} (keeps : s.KeepsControl s') : Moves s s'
  /-- An operation is registered, with control if it is the first one. -/
  | registers {id : OperationId} {name : String} (running : s.running = true)
      (fresh : s.slot? id = none) : Moves s (s.create id name).2
  /-- Control is handed over to a registered operation. -/
  | handsOver {s₁ : Scheduler σ} {a d : OperationId} (control : s.scheduled = some a)
      (keeps : s.KeepsControl s₁) (mem : d ∈ s₁.slots.map Slot.id) : Moves s (s₁.handOver a d).2

/-! ## Keeping control -/

theorem KeepsControl.refl (s : Scheduler σ) : s.KeepsControl s :=
  ⟨rfl, rfl, rfl, rfl, rfl⟩

theorem KeepsControl.trans {s s' s'' : Scheduler σ} (h : s.KeepsControl s')
    (h' : s'.KeepsControl s'') : s.KeepsControl s'' :=
  ⟨h'.id.trans h.id, h'.running.trans h.running, h'.bug.trans h.bug,
    h'.scheduled.trans h.scheduled, h'.flags.trans h.flags⟩

theorem Same.keepsControl {s s' : Scheduler σ} (h : s.Same s') : s.KeepsControl s' :=
  ⟨h.id, h.running, h.bug, h.scheduled, by rw [Scheduler.flags, h.slots, Scheduler.flags]⟩

theorem keepsControl_updateSlot (s : Scheduler σ) (id : OperationId) {f : Slot → Slot}
    (hid : ∀ slot, (f slot).id = slot.id) (hactive : ∀ slot, (f slot).active = slot.active) :
    s.KeepsControl (s.updateSlot id f) where
  id := rfl
  running := rfl
  bug := rfl
  scheduled := rfl
  flags := by
    simp only [Scheduler.flags, updateSlot, List.map_map]
    refine List.map_congr_left fun slot _ => ?_
    by_cases h : slot.id = id
    · simp [h, hid, hactive]
    · simp [h]

theorem Controlled.keep {s s' : Scheduler σ} (h : s.Controlled) (hk : s.KeepsControl s') :
    s'.Controlled where
  bug := hk.bug.trans h.bug
  scheduled := by
    rw [hk.flags, hk.scheduled]
    exact h.scheduled

/-! ## Registering and handing over -/

theorem flags_create {s : Scheduler σ} {id : OperationId} (name : String)
    (hrun : s.running = true) (hfresh : s.slot? id = none) :
    (s.create id name).2.flags.Perm ((id, s.slots.isEmpty) :: s.flags) := by
  have hslots : (s.create id name).2.slots =
      insertSlot { Slot.fresh id name with active := s.slots.isEmpty } s.slots := by
    rw [create_of_fresh hfresh, ← newSlot_of_running hrun]
    rfl
  rw [Scheduler.flags, hslots]
  exact (insertSlot_perm _ s.slots).map _

theorem scheduled_create {s : Scheduler σ} {id : OperationId} (name : String)
    (hfresh : s.slot? id = none) :
    (s.create id name).2.scheduled = if s.slots.isEmpty then some id else s.scheduled := by
  rw [create_of_fresh hfresh]
  rfl

/-- A new operation is in control if it is the first one, and otherwise inactive. -/
theorem Controlled.create {s : Scheduler σ} (h : s.Controlled) {id : OperationId} {name : String}
    (hrun : s.running = true) (hfresh : s.slot? id = none) :
    (s.create id name).2.Controlled where
  bug := by
    rw [create_of_fresh hfresh]
    exact h.bug
  scheduled _ := by
    have hmem : ∀ flag, flag ∈ (s.create id name).2.flags ↔
        flag = (id, s.slots.isEmpty) ∨ flag ∈ s.flags := fun flag =>
      (flags_create name hrun hfresh).mem_iff.trans List.mem_cons
    rw [scheduled_create name hfresh]
    cases hslots : s.slots with
    | nil =>
        have hflags : s.flags = [] := by simp [Scheduler.flags, hslots]
        refine ⟨id, by simp, (hmem _).mpr (by simp [hslots]), fun id' hid' => ?_⟩
        simpa [hslots, hflags] using (hmem _).mp hid'
    | cons slot rest =>
        have hflags : s.flags ≠ [] := by simp [Scheduler.flags, hslots]
        obtain ⟨a, hscheduled, ha, honly⟩ := h.scheduled hflags
        refine ⟨a, by simpa using hscheduled, (hmem _).mpr (Or.inr ha), fun id' hid' => ?_⟩
        rcases (hmem _).mp hid' with hnew | hold
        · simp [hslots] at hnew
        · exact honly id' hold

theorem mem_flags_handOver {s : Scheduler σ} {a d : OperationId} (hne : d ≠ a) {id : OperationId}
    {active : Bool} :
    (id, active) ∈ (s.handOver a d).2.flags ↔ ∃ slot ∈ s.slots, slot.id = id ∧
      active = if id = d then true else if id = a then false else slot.active := by
  have hslots : (s.handOver a d).2.slots = (s.slots.map fun slot =>
      if slot.id = a then { slot with active := false } else slot).map fun slot =>
        if slot.id = d then { slot with active := true } else slot := by
    rw [snd_handOver_of_ne s hne]
    rfl
  simp only [Scheduler.flags, hslots, List.map_map, List.mem_map, Function.comp_apply]
  refine exists_congr fun slot => and_congr_right fun _ => ?_
  by_cases ha : slot.id = a
  · have hd : a ≠ d := hne.symm
    by_cases hid : a = id
    · subst hid
      simp [ha, hd, eq_comm]
    · simp [ha, hd, hid]
  · by_cases hd : slot.id = d
    · by_cases hid : d = id
      · subst hid
        simp [hd, hne, eq_comm]
      · simp [hd, hne, hid]
    · by_cases hid : slot.id = id
      · subst hid
        simp [ha, hd, eq_comm]
      · simp [ha, hd, hid]

/-- The scheduled operation lets go of control, and the next one gets it. -/
theorem Controlled.handOver {s : Scheduler σ} (h : s.Controlled) {a d : OperationId}
    (hcontrol : s.scheduled = some a) (hmem : d ∈ s.slots.map Slot.id) :
    (s.handOver a d).2.Controlled := by
  rcases handOver_cases s a d with hstay | ⟨hne, hpass⟩
  · rwa [hstay]
  · have hbug : (s.handOver a d).2.bug = s.bug := by
      rw [hpass]
      rfl
    have hscheduled : (s.handOver a d).2.scheduled = some d := by
      rw [hpass]
      rfl
    refine ⟨hbug.trans h.bug, fun _ => ⟨d, hscheduled, ?_, fun id hid => ?_⟩⟩
    · obtain ⟨slot, hslot, hid⟩ := List.mem_map.mp hmem
      exact (mem_flags_handOver hne).mpr ⟨slot, hslot, hid, by simp⟩
    · obtain ⟨slot, hslot, rfl, hactive⟩ := (mem_flags_handOver hne).mp hid
      by_contra hother
      -- any other operation that is active would have been the scheduled one before
      rw [if_neg hother] at hactive
      have hwas : slot.id ≠ a ∧ slot.active = true := by
        by_cases ha : slot.id = a
        · simp [ha] at hactive
        · exact ⟨ha, by rw [hactive, if_neg ha]⟩
      have hflag : (slot.id, true) ∈ s.flags :=
        List.mem_map.mpr ⟨slot, hslot, by rw [hwas.2]⟩
      obtain ⟨a', hcontrol', -, honly⟩ := h.scheduled (List.ne_nil_of_mem hflag)
      rw [hcontrol] at hcontrol'
      exact hwas.1 ((honly _ hflag).trans (Option.some.inj hcontrol').symm)

/-! ## The moves of the calls -/

theorem id_handOver (s : Scheduler σ) (current next : OperationId) :
    (s.handOver current next).2.id = s.id := by
  rcases handOver_cases s current next with hstay | ⟨-, hpass⟩
  · rw [hstay]
  · rw [hpass]
    rfl

theorem id_create (s : Scheduler σ) (id : OperationId) (name : String) :
    (s.create id name).2.id = s.id := by
  rcases create_cases s id name with hknown | ⟨-, hfresh⟩
  · rw [hknown]
  · rw [hfresh]
    rfl

theorem Moves.id {s s' : Scheduler σ} (h : s.Moves s') : s'.id = s.id := by
  cases h with
  | ends id _ => exact id
  | keeps keeps => exact keeps.id
  | registers running fresh => exact id_create s _ _
  | handsOver control keeps mem => exact (id_handOver _ _ _).trans keeps.id

/-- A move that does not end the run leaves it under control. -/
theorem Moves.controlled {s s' : Scheduler σ} (h : s.Moves s')
    (hs : s.running = true → s.Controlled) (hrun : s'.running = true) : s'.Controlled := by
  cases h with
  | ends id ended =>
      rw [ended] at hrun
      cases hrun
  | keeps keeps => exact (hs (keeps.running ▸ hrun)).keep keeps
  | registers running fresh => exact (hs running).create running fresh
  | handsOver control keeps mem =>
      rw [running_handOver] at hrun
      exact ((hs (keeps.running ▸ hrun)).keep keeps).handOver (keeps.scheduled.trans control) mem

theorem exclusive_new (i : Nat) (config : Configuration) (q : σ) :
    (new i config q).Exclusive where
  distinct := List.nodup_nil
  controlled _ := ⟨rfl, fun h => absurd rfl h⟩

/-- Of a scheduler that runs and has operations, one slot is active, that of the scheduled
operation. -/
theorem Exclusive.filter_active {s : Scheduler σ} (h : s.Exclusive) (hrun : s.running = true)
    (hslots : s.slots ≠ []) :
    ∃ slot, s.slots.filter (·.active) = [slot] ∧ s.scheduled = some slot.id := by
  have hflags : s.flags ≠ [] := by simpa [Scheduler.flags] using hslots
  obtain ⟨a, hscheduled, ha, honly⟩ := (h.controlled hrun).scheduled hflags
  obtain ⟨slot, hslot, hflag⟩ := List.mem_map.mp ha
  obtain ⟨rfl, hactive⟩ := Prod.mk.inj hflag
  refine ⟨slot, ?_, hscheduled⟩
  -- active slots have the identity of the scheduled one, and identities are distinct
  have hmem : ∀ slot', slot' ∈ s.slots.filter (·.active) ↔ slot' ∈ [slot] := fun slot' => by
    rw [List.mem_filter, List.mem_singleton]
    constructor
    · rintro ⟨hslot', hactive'⟩
      have hid := honly slot'.id (List.mem_map.mpr ⟨slot', hslot', by rw [hactive']⟩)
      exact List.inj_on_of_nodup_map h.distinct hslot' hslot hid
    · rintro rfl
      exact ⟨hslot, hactive⟩
  have hnodup : (s.slots.filter (·.active)).Nodup := (List.Nodup.of_map _ h.distinct).filter _
  exact List.perm_singleton.mp ((List.perm_ext_iff_of_nodup hnodup (List.nodup_singleton slot)).mpr
    hmem)

theorem moves_create (s : Scheduler σ) (id : OperationId) (name : String) :
    s.Moves (s.create id name).2 := by
  cases hrun : s.running with
  | false => exact .ends (id_create s id name) (running_create s id name ▸ hrun)
  | true =>
      cases hslot : s.slot? id with
      | none => exact .registers hrun hslot
      | some slot =>
          rw [create_of_known hslot]
          exact .keeps (.refl s)

theorem moves_start (s : Scheduler σ) (t : Token) : s.Moves (s.start t).2 := by
  rcases start_cases s t with ⟨slot, -, -, hstart⟩ | ⟨-, hfail⟩
  · rw [hstart]
    exact .keeps (keepsControl_updateSlot s _ (fun _ => rfl) fun _ => rfl)
  · rw [hfail]
    exact .ends rfl rfl

theorem Stopped.moves {s s' : Scheduler σ} (h : s.Stopped s') : s.Moves s' :=
  .ends h.id h.running

variable [Strategy σ]

/-- A yield that is admitted ends the run or hands over control. -/
theorem moves_yield (s : Scheduler σ) (t : Token) (kind : ActionKind) (targetKind : TargetKind)
    (target : OperationId) : s.Moves (s.yield t kind targetKind target).2 := by
  cases href : s.refusal? t with
  | some s' =>
      rw [yield_of_refused href]
      exact (refuses_of_refused href).stopped.moves
  | none =>
      obtain ⟨hrun, hproper, -⟩ := admitted_of_refusal?_eq_none href
      have hyields := yields_of_proper hrun hproper kind targetKind target
      generalize s.yieldSaid t ⟨kind, targetKind, target, none⟩ = l,
        s.yield t kind targetKind target = result at hyields ⊢
      cases hyields with
      | cut => exact (stopped_cutOff s).moves
      | failed declares => exact .ends declares.id rfl
      | declined declares =>
          exact .ends ((stopped_exhaust _ _).id.trans declares.id) (stopped_exhaust _ _).running
      | overheated declares legal => exact .ends declares.id rfl
      | granted declares mem enabled =>
          have hdeclared := keepsControl_updateSlot s t.operation
            (f := (·.declare ⟨kind, targetKind, target, none⟩)) (fun _ => rfl) fun _ => rfl
          refine .handsOver (admits_of_admitted href).scheduled
            (hdeclared.trans declares.keepsControl) ?_
          rw [← ids_snapshots]
          exact List.mem_map_of_mem mem

theorem moves_requestValue {α : Type} (s : Scheduler σ) (t : Token) (request : σ → Answer α × σ)
    (check : Answer α → Answer α) (toChoice : α → Choice) (toDecision : α → Decision) :
    s.Moves (s.requestValue t request check toChoice toDecision).2 := by
  cases href : s.refusal? t with
  | some s' =>
      rw [requestValue_of_refused href]
      exact (refuses_of_refused href).stopped.moves
  | none =>
      rw [requestValue_of_admitted href]
      rcases check (request s.strategy).1 with e | _ | value
      · exact .ends rfl rfl
      · exact .ends rfl rfl
      · exact .keeps ⟨rfl, rfl, rfl, rfl, rfl⟩

theorem moves_after (s : Scheduler σ) (c : Call) : s.Moves (s.after c) := by
  cases c with
  | create id name => exact moves_create s id name
  | start t => exact moves_start s t
  | yield t kind targetKind target => exact moves_yield s t kind targetKind target
  | nextBoolean t max fairness =>
      exact moves_requestValue s t (Strategy.nextBoolean · max) (fun a => a) .boolean
        (booleanDecision fairness)
  | nextInteger t max =>
      exact moves_requestValue s t (Strategy.nextInteger · max) (checkRange max) .integer .integer
  | blockOnReceive t =>
      exact .keeps (keepsControl_updateSlot s t.operation (fun _ => rfl) fun _ => rfl)
  | unblock id =>
      exact .keeps (keepsControl_updateSlot s id Slot.id_unblock Slot.active_unblock)
  | complete t =>
      exact .keeps (keepsControl_updateSlot s t.operation (fun _ => rfl) fun _ => rfl)
  | notify n =>
      refine .keeps ?_
      simp only [after, notify]
      split
      · exact ⟨rfl, rfl, rfl, rfl, rfl⟩
      · exact .refl s
  | send sender target event =>
      refine .keeps ?_
      simp only [after, send]
      split
      · exact ⟨rfl, rfl, rfl, rfl, rfl⟩
      · exact .refl s
  | failAssertion _ | reportAssertion _ | stop => exact .ends rfl rfl

/-! ## Sequences of calls -/

theorem Exclusive.after {s : Scheduler σ} (h : s.Exclusive) (c : Call) : (s.after c).Exclusive where
  distinct := ((passage_after s c).distinct h.distinct).1
  controlled := (moves_after s c).controlled h.controlled

theorem Exclusive.afterAll {s : Scheduler σ} (h : s.Exclusive) (calls : List Call) :
    (s.afterAll calls).Exclusive := by
  induction calls generalizing s with
  | nil => exact h
  | cons c calls ih => exact ih (h.after c)

theorem id_afterAll (s : Scheduler σ) (calls : List Call) : (s.afterAll calls).id = s.id := by
  induction calls generalizing s with
  | nil => rfl
  | cons c calls ih => exact (ih (s.after c)).trans (moves_after s c).id

/-- A suspension point is misused: the run is over at once. -/
theorem after_of_misuse {s : Scheduler σ} {c : Call} {t : Token} (hc : c.suspends? = some t)
    (hrun : s.running = true) {m : Misuse} (hm : s.misuse? t = some m) :
    s.said c = [] ∧ s.after c = s.fail .uncontrolledSynchronization m.message := by
  have href : s.refusal? t = some (s.fail .uncontrolledSynchronization m.message) := by
    simp [refusal?, hrun, hm]
  have hadmission : s.admission t = [] := by simp [admission, hm]
  cases c with
  | yield t' kind targetKind target =>
      obtain rfl := Option.some.inj hc
      exact ⟨by simp [said, yieldSaid, hadmission, href], by simp [after, yield, href]⟩
  | nextBoolean t' max fairness =>
      obtain rfl := Option.some.inj hc
      exact ⟨by simp [said, booleanSaid, valueSaid, hadmission, href],
        by simp [after, nextBoolean, href]⟩
  | nextInteger t' max =>
      obtain rfl := Option.some.inj hc
      exact ⟨by simp [said, integerSaid, valueSaid, hadmission, href],
        by simp [after, nextInteger, href]⟩
  | create _ _ | start _ | blockOnReceive _ | unblock _ | complete _ | notify _ | send _ _ _
  | failAssertion _ | reportAssertion _ | stop => cases hc

/-- Under any strategy, after any calls with any tokens, a scheduler that runs has exactly one
active slot, that of the scheduled operation, if it has any. Every decision in its schedule was
appended by a call of the operation scheduled at that time: an operation that was registered and
enabled then, a Boolean or an integer in range. And if it runs, a suspension point that is reached
with a foreign token, that of an unregistered operation or that of one that is not scheduled asks
the strategy nothing, decides nothing and ends the run with a bug. -/
theorem control_is_exclusive (i : Nat) (config : Configuration) (q : σ) (calls : List Call) :
    let start := new i config q
    let s := start.afterAll calls
    (s.running = true → s.slots ≠ [] →
      ∃ slot, s.slots.filter (·.active) = [slot] ∧ s.scheduled = some slot.id) ∧
    (∀ k d, s.schedule[k]? = some d → ∃ before c rest, calls = before ++ c :: rest ∧
      let s' := start.afterAll before
      s'.id = i ∧ s'.schedule.size = k ∧ (s'.after c).schedule = s'.schedule.push d ∧
        s'.Enters c d) ∧
    (∀ c t, c.suspends? = some t → s.running = true →
      (t.scheduler ≠ i ∨ s.slot? t.operation = none ∨ s.scheduled ≠ some t.operation) →
      s.said c = [] ∧ (s.after c).strategy = s.strategy ∧ (s.after c).schedule = s.schedule ∧
        (s.after c).running = false ∧
        ∃ message, (s.after c).bug = some ⟨.uncontrolledSynchronization, message⟩) := by
  intro start s
  have hs : s.Exclusive := (exclusive_new i config q).afterAll calls
  refine ⟨hs.filter_active, fun k d hk => ?_, fun c t hc hrun himproper => ?_⟩
  · obtain ⟨before, c, rest, hcalls, hsize, hpush, henters⟩ :=
      exists_call_of_schedule (s := start) rfl calls hk
    exact ⟨before, c, rest, hcalls, id_afterAll start before, hsize, hpush, henters⟩
  · have hid : s.id = i := id_afterAll start calls
    have hnot : s.misuse? t ≠ none := fun hproper => by
      have hadmits := admits_iff.mpr hproper
      rcases himproper with hforeign | hunregistered | hunscheduled
      · exact hforeign (hadmits.own.trans hid)
      · exact Option.isSome_iff_ne_none.mp hadmits.registered hunregistered
      · exact hunscheduled hadmits.scheduled
    obtain ⟨m, hm⟩ := Option.ne_none_iff_exists'.mp hnot
    obtain ⟨hsaid, hafter⟩ := after_of_misuse hc hrun hm
    rw [hafter]
    refine ⟨hsaid, rfl, rfl, rfl, m.message, ?_⟩
    simp [fail, stop, recordBug, (hs.controlled hrun).bug]

/-- Names operation 1, and then the first operation that is enabled. -/
def pongFirst : Scripted where
  answers := [.number 1]
  runs := []
  withheld := []
  fair := false
  maxSteps := 0
  endError := none
  refusals := ⟨"", "", ""⟩

/-- Two operations are registered, and the first one yields. -/
def yielded : List Call :=
  [.create ⟨0⟩ "Ping", .create ⟨1⟩ "Pong", .yield ⟨7, ⟨0⟩⟩ .yield .operation ⟨0⟩]

theorem control_is_exclusive_of_yielded :
    ((new 7 {} pongFirst).afterAll yielded).running = true ∧
      ((new 7 {} pongFirst).afterAll yielded).slots ≠ [] ∧
      ((new 7 {} pongFirst).afterAll yielded).schedule[0]? = some (.schedule ⟨1⟩) ∧
      (∃ slot, ((new 7 {} pongFirst).afterAll yielded).slots.filter (·.active) = [slot] ∧
        ((new 7 {} pongFirst).afterAll yielded).scheduled = some slot.id) ∧
      (((new 7 {} pongFirst).afterAll yielded).after
        (.nextInteger ⟨7, ⟨0⟩⟩ 3)).running = false := by
  obtain ⟨hactive, -, hmisused⟩ := control_is_exclusive 7 {} pongFirst yielded
  have hrun : ((new 7 {} pongFirst).afterAll yielded).running = true := by decide +kernel
  have hslots : ((new 7 {} pongFirst).afterAll yielded).slots ≠ [] := by decide +kernel
  have hlogged : ((new 7 {} pongFirst).afterAll yielded).schedule[0]? = some (.schedule ⟨1⟩) := by
    decide +kernel
  have hover := hmisused (.nextInteger ⟨7, ⟨0⟩⟩ 3) ⟨7, ⟨0⟩⟩ rfl hrun
    (Or.inr (Or.inr (by decide +kernel)))
  exact ⟨hrun, hslots, hlogged, hactive hrun hslots, hover.2.2.2.1⟩

end Scheduler

end Interleave
