import Interleave.Proofs.Scheduler.Calling
import Mathlib.Data.String.Basic

/-!
# Lists of operations and hot monitors

A scheduler lists its operations by identity and the hot monitors by name, and which monitors are
hot can be told from the dialogue: those of which the last notice says so (`isHot`). This holds of
every state that calls lead to (`Scheduler.Listed.makes`), and therefore of the runs of programs.
-/

namespace Interleave

/-- The monitor and its temperature that a notice tells of. -/
def Exchange.alarm? : Exchange → Option (String × Bool)
  | .notice (.monitored monitor _ hot) => some (monitor, hot)
  | _ => none

/-- What a dialogue tells of monitors, in order. -/
def alarms (l : List Exchange) : List (String × Bool) :=
  l.filterMap Exchange.alarm?

/-- Whether the last notice about a monitor says that it is hot. -/
def isHot (monitor : String) (l : List Exchange) : Bool :=
  ((alarms l).reverse.lookup monitor).getD false

theorem alarms_append (l l' : List Exchange) : alarms (l ++ l') = alarms l ++ alarms l' :=
  List.filterMap_append

theorem isHot_append_of_quiet {l l' : List Exchange} (h : alarms l' = []) (monitor : String) :
    isHot monitor (l ++ l') = isHot monitor l := by
  rw [isHot, alarms_append, h, List.append_nil, isHot]

theorem isHot_concat (l : List Exchange) (name monitor : String) (sender : OperationId)
    (hot : Bool) : isHot monitor (l ++ [.notice (.monitored name sender hot)]) =
      if monitor = name then hot else isHot monitor l := by
  have hlast : alarms [.notice (.monitored name sender hot)] = [(name, hot)] := rfl
  simp only [isHot, alarms_append, hlast, List.reverse_append, List.reverse_singleton,
    List.singleton_append, List.lookup_cons]
  by_cases h : monitor = name
  · simp [h]
  · have hne : (monitor == name) = false := by simpa using h
    simp [h, hne]

/-! ## Sorted insertion -/

theorem names_insertMonitor (name : String) (monitors : List (String × Nat)) (monitor : String) :
    monitor ∈ (insertMonitor name monitors).map Prod.fst ↔
      monitor = name ∨ monitor ∈ monitors.map Prod.fst := by
  induction monitors with
  | nil => simp [insertMonitor]
  | cons entry rest ih =>
      unfold insertMonitor
      split
      · simp
      · split
        · rename_i heq
          simp only [List.map_cons, List.mem_cons, heq]
          tauto
        · simp only [List.map_cons, List.mem_cons, ih]
          tauto

theorem pairwise_insertMonitor {name : String} {monitors : List (String × Nat)}
    (h : (monitors.map Prod.fst).Pairwise (· < ·)) :
    ((insertMonitor name monitors).map Prod.fst).Pairwise (· < ·) := by
  induction monitors with
  | nil => simp [insertMonitor]
  | cons entry rest ih =>
      simp only [List.map_cons, List.pairwise_cons] at h
      obtain ⟨hfirst, hrest⟩ := h
      unfold insertMonitor
      split
      · -- the new monitor comes first
        rename_i hlt
        simp only [List.map_cons, List.pairwise_cons, List.mem_cons]
        refine ⟨?_, hfirst, hrest⟩
        rintro monitor (rfl | hmem)
        · exact hlt
        · exact lt_trans hlt (hfirst monitor hmem)
      · split
        · simp only [List.map_cons, List.pairwise_cons]
          exact ⟨hfirst, hrest⟩
        · rename_i hnot hne
          simp only [List.map_cons, List.pairwise_cons]
          refine ⟨fun monitor hmem => ?_, ih hrest⟩
          rcases (names_insertMonitor name rest monitor).mp hmem with rfl | hold
          · exact lt_of_le_of_ne (not_lt.mp hnot) (Ne.symm hne)
          · exact hfirst monitor hold

theorem pairwise_insertSlot {slot : Slot} {slots : List Slot}
    (h : (slots.map Slot.id).Pairwise (·.value < ·.value))
    (hfresh : slot.id ∉ slots.map Slot.id) :
    ((insertSlot slot slots).map Slot.id).Pairwise (·.value < ·.value) := by
  induction slots with
  | nil => simp [insertSlot]
  | cons s rest ih =>
      simp only [List.map_cons, List.pairwise_cons] at h
      obtain ⟨hfirst, hrest⟩ := h
      simp only [List.map_cons, List.mem_cons, not_or] at hfresh
      unfold insertSlot
      split
      · rename_i hlt
        simp only [List.map_cons, List.pairwise_cons, List.mem_cons]
        refine ⟨?_, hfirst, hrest⟩
        rintro id (rfl | hmem)
        · exact hlt
        · exact UInt64.lt_trans hlt (hfirst id hmem)
      · rename_i hnot
        have hne : s.id.value ≠ slot.id.value := fun heq =>
          hfresh.1 (congrArg OperationId.mk heq.symm)
        simp only [List.map_cons, List.pairwise_cons]
        refine ⟨fun id hmem => ?_, ih hrest hfresh.2⟩
        have hperm := (Scheduler.insertSlot_perm slot rest).map Slot.id
        rcases List.mem_cons.mp (hperm.mem_iff.mp hmem) with rfl | hold
        · exact UInt64.lt_of_le_of_ne (UInt64.not_lt.mp hnot) hne
        · exact hfirst id hold

/-! ## Names -/

namespace Scheduler

variable {σ : Type}

/-- No operation and no hot monitor has come or gone. -/
structure SameNames (s s' : Scheduler σ) : Prop where
  operations : s'.slots.map Slot.id = s.slots.map Slot.id
  monitors : s'.hotMonitors.map Prod.fst = s.hotMonitors.map Prod.fst

theorem SameNames.refl (s : Scheduler σ) : s.SameNames s :=
  ⟨rfl, rfl⟩

theorem SameNames.trans {s s' s'' : Scheduler σ} (h : s.SameNames s') (h' : s'.SameNames s'') :
    s.SameNames s'' :=
  ⟨h'.operations.trans h.operations, h'.monitors.trans h.monitors⟩

theorem sameNames_updateSlot (s : Scheduler σ) (id : OperationId) {f : Slot → Slot}
    (hf : ∀ slot, (f slot).id = slot.id) : s.SameNames (s.updateSlot id f) :=
  ⟨ids_updateSlot s id hf, rfl⟩

/-- To end the run takes away no operation and no monitor. -/
theorem SameNames.killed {s s' : Scheduler σ} (hslots : s'.slots = s.slots.map Slot.kill)
    (hmonitors : s'.hotMonitors = s.hotMonitors) : s.SameNames s' := by
  refine ⟨?_, by rw [hmonitors]⟩
  rw [hslots, List.map_map]
  rfl

theorem sameNames_handOver (s : Scheduler σ) (current next : OperationId) :
    s.SameNames (s.handOver current next).2 := by
  rcases handOver_cases s current next with hstay | ⟨-, hpass⟩
  · rw [hstay]
    exact .refl s
  · rw [hpass]
    let idle : Slot → Slot := fun slot => { slot with active := false }
    let wake : Slot → Slot := fun slot => { slot with active := true }
    have hidle := sameNames_updateSlot s current (f := idle) fun _ => rfl
    have hwake := sameNames_updateSlot (s.updateSlot current idle) next (f := wake) fun _ => rfl
    exact ⟨(hidle.trans hwake).operations, rfl⟩

theorem sameNames_start (s : Scheduler σ) (t : Token) : s.SameNames (s.start t).2 := by
  rcases start_cases s t with ⟨slot, -, -, hstart⟩ | ⟨-, hfail⟩
  · rw [hstart]
    exact sameNames_updateSlot s _ fun _ => rfl
  · rw [hfail]
    exact .killed rfl rfl

/-! ## Lists in order -/

/-- Behind the given dialogue the operations are listed by identity, and the hot monitors, which are
those that the dialogue tells of, by name. -/
structure Listed (l : List Exchange) (s : Scheduler σ) : Prop where
  operations : (s.slots.map Slot.id).Pairwise (·.value < ·.value)
  monitors : (s.hotMonitors.map Prod.fst).Pairwise (· < ·)
  hot : ∀ monitor, monitor ∈ s.hotMonitors.map Prod.fst ↔ isHot monitor l = true

theorem listed_new (i : Nat) (config : Configuration) (q : σ) : (new i config q).Listed [] where
  operations := List.Pairwise.nil
  monitors := List.Pairwise.nil
  hot monitor := by simp [new, isHot, alarms]

theorem Listed.same {l l' : List Exchange} {s s' : Scheduler σ} (h : s.Listed l)
    (hsame : s.SameNames s') (hquiet : alarms l' = []) : s'.Listed (l ++ l') where
  operations := by
    rw [hsame.operations]
    exact h.operations
  monitors := by
    rw [hsame.monitors]
    exact h.monitors
  hot monitor := by
    rw [hsame.monitors, isHot_append_of_quiet hquiet]
    exact h.hot monitor

theorem Listed.create {l : List Exchange} {s : Scheduler σ} (h : s.Listed l) (id : OperationId)
    (name : String) : (s.create id name).2.Listed l := by
  rcases create_cases s id name with hknown | ⟨hnone, hfresh⟩
  · rw [hknown]
    exact h
  · rw [hfresh]
    refine ⟨pairwise_insertSlot h.operations ?_, h.monitors, h.hot⟩
    rw [id_newSlot]
    exact slot?_eq_none_iff.mp hnone

/-! ## Calls that keep the names -/

variable [Strategy σ]

theorem sameNames_heat (s : Scheduler σ) : s.SameNames s.heat := by
  rcases heat_cases s with hheat | hheat
  · rw [hheat]
    exact .refl s
  · rw [hheat]
    refine ⟨rfl, ?_⟩
    simp only [List.map_map]
    rfl

theorem sameNames_dispatch (s : Scheduler σ) (current next : OperationId) :
    s.SameNames (s.dispatch current next).2 := by
  let s₁ := { s with schedule := s.schedule.push (.schedule next) }
  have hheat : s.SameNames s₁.heat := ⟨(sameNames_heat s₁).operations, (sameNames_heat s₁).monitors⟩
  rcases dispatch_cases s current next with ⟨monitor, -, hend⟩ | hpass
  · rw [hend]
    exact hheat.trans (.killed rfl rfl)
  · rw [hpass]
    exact hheat.trans (sameNames_handOver _ _ _)

theorem sameNames_exhaust (s : Scheduler σ) (choices : List Snapshot) :
    s.SameNames (s.exhaust choices) :=
  .killed (stopped_exhaust s choices).slots (monitors_exhaust s choices)

theorem sameNames_of_refused {s s' : Scheduler σ} {t : Token} (h : s.refusal? t = some s') :
    s.SameNames s' := by
  have hrefuses := refuses_of_refused h
  refine .killed hrefuses.stopped.slots ?_
  cases hrefuses with
  | ended => rfl
  | misused => rfl
  | bound => rcases cutOff_cases s with ⟨message, hcut⟩ | hcut <;> rw [hcut] <;> rfl

theorem sameNames_yield (s : Scheduler σ) (t : Token) (kind : ActionKind)
    (targetKind : TargetKind) (target : OperationId) :
    s.SameNames (s.yield t kind targetKind target).2 := by
  cases href : s.refusal? t with
  | some s' =>
      rw [yield_of_refused href]
      exact sameNames_of_refused href
  | none =>
      rw [yield_of_admitted href]
      let next : Declared := ⟨kind, targetKind, target, none⟩
      have hdeclare : s.SameNames (s.asked t next).2 :=
        ⟨ids_updateSlot s t.operation (f := (·.declare next)) fun _ => rfl, rfl⟩
      refine hdeclare.trans ?_
      rcases resolve_cases (s.asked t next).2 t.operation (s.shown t next) (s.asked t next).1 with
        ⟨e, hend⟩ | ⟨-, hend⟩ | ⟨d, -, hdispatch⟩
      · rw [hend]
        exact .killed rfl rfl
      · rw [hend]
        exact sameNames_exhaust _ _
      · rw [hdispatch]
        exact sameNames_dispatch _ _ _

theorem sameNames_requestValue {α : Type} (s : Scheduler σ) (t : Token)
    (request : σ → Answer α × σ) (check : Answer α → Answer α) (toChoice : α → Choice)
    (toDecision : α → Decision) :
    s.SameNames (s.requestValue t request check toChoice toDecision).2 := by
  cases href : s.refusal? t with
  | some s' =>
      rw [requestValue_of_refused href]
      exact sameNames_of_refused href
  | none =>
      rw [requestValue_of_admitted href]
      rcases check (request s.strategy).1 with e | _ | value
      · exact .killed rfl rfl
      · exact .killed rfl rfl
      · exact ⟨rfl, rfl⟩

/-! ## Dialogues that tell of no monitor -/

theorem alarms_yieldSaid (s : Scheduler σ) (t : Token) (next : Declared) :
    alarms (s.yieldSaid t next) = [] :=
  List.filterMap_eq_nil_iff.mpr <| forall_mem_yieldSaid s (fun _ => rfl) (fun _ => rfl)
    (fun _ => rfl) (fun _ _ _ => rfl) t next

theorem alarms_valueSaid {α : Type} (s : Scheduler σ) (t : Token) (request : σ → Answer α × σ)
    {exchange : Answer α → Exchange} (hexchange : ∀ answer, (exchange answer).alarm? = none)
    (check : Answer α → Answer α) (toChoice : α → Choice) (toDecision : α → Decision) :
    alarms (s.valueSaid t request exchange check toChoice toDecision) = [] :=
  List.filterMap_eq_nil_iff.mpr <| forall_mem_valueSaid s (fun _ => rfl) (fun _ => rfl)
    (fun _ => rfl) (fun _ _ => rfl) hexchange t request check toChoice toDecision

theorem alarms_booleanSaid (s : Scheduler σ) (t : Token) (max : UInt32)
    (fairness : Option String) : alarms (s.booleanSaid t max fairness) = [] :=
  alarms_valueSaid s t _ (fun _ => rfl) _ _ _

theorem alarms_integerSaid (s : Scheduler σ) (t : Token) (max : UInt32) :
    alarms (s.integerSaid t max) = [] :=
  alarms_valueSaid s t _ (fun _ => rfl) _ _ _

/-! ## States that calls lead to -/

/-- A notice about a monitor lists it as hot or takes it off the list. -/
theorem Listed.notify {l : List Exchange} {s : Scheduler σ} (h : s.Listed l) (n : Notice) :
    (s.notify n).Listed (l ++ s.noticeSaid n) := by
  cases hrun : s.running with
  | false =>
      rw [noticeSaid_of_over hrun, notify_of_over hrun, List.append_nil]
      exact h
  | true =>
    rw [noticeSaid_of_running hrun, notify_of_running hrun]
    cases n with
    | monitored name sender hot =>
        cases hot with
        | true =>
            refine ⟨h.operations, pairwise_insertMonitor h.monitors, fun monitor => ?_⟩
            rw [isHot_concat]
            show monitor ∈ (insertMonitor name s.hotMonitors).map Prod.fst ↔ _
            rw [names_insertMonitor, h.hot]
            by_cases hname : monitor = name <;> simp [hname]
        | false =>
            refine ⟨h.operations, ?_, fun monitor => ?_⟩
            · exact h.monitors.sublist ((List.filter_sublist).map Prod.fst)
            · rw [isHot_concat]
              show monitor ∈ (s.hotMonitors.filter fun entry => !entry.1 == name).map Prod.fst ↔ _
              have hmem : monitor ∈ (s.hotMonitors.filter fun entry =>
                  !entry.1 == name).map Prod.fst ↔
                    monitor ∈ s.hotMonitors.map Prod.fst ∧ monitor ≠ name := by
                simp only [List.mem_map, List.mem_filter]
                constructor
                · rintro ⟨entry, ⟨hentry, hne⟩, rfl⟩
                  exact ⟨⟨entry, hentry, rfl⟩, by simpa using hne⟩
                · rintro ⟨⟨entry, hentry, rfl⟩, hne⟩
                  exact ⟨entry, ⟨hentry, by simpa using hne⟩, rfl⟩
              rw [hmem, h.hot]
              by_cases hname : monitor = name <;> simp [hname]
    | created | started | received | chosen => exact h.same ⟨rfl, rfl⟩ rfl

theorem Listed.after {l : List Exchange} {s : Scheduler σ} (h : s.Listed l) (c : Call) :
    (s.after c).Listed (l ++ s.said c) := by
  cases c with
  | create id name =>
      rw [said, List.append_nil]
      exact h.create id name
  | notify n => exact h.notify n
  | start t => exact h.same (sameNames_start s t) rfl
  | yield t kind targetKind target =>
      exact h.same (sameNames_yield s t kind targetKind target) (alarms_yieldSaid s t _)
  | nextBoolean t max fairness =>
      exact h.same (sameNames_requestValue s t (Strategy.nextBoolean · max) (fun a => a) .boolean
        (booleanDecision fairness)) (alarms_booleanSaid s t max fairness)
  | nextInteger t max =>
      exact h.same (sameNames_requestValue s t (Strategy.nextInteger · max) (checkRange max)
        .integer .integer) (alarms_integerSaid s t max)
  | blockOnReceive t => exact h.same (sameNames_updateSlot s t.operation fun _ => rfl) rfl
  | complete t => exact h.same (sameNames_updateSlot s t.operation fun _ => rfl) rfl
  | unblock id => exact h.same (sameNames_updateSlot s id Slot.id_unblock) rfl
  | send sender target event =>
      simp only [Scheduler.after, said, Scheduler.send, sendSaid]
      split
      · exact h.same ⟨rfl, rfl⟩ rfl
      · exact h.same (.refl s) rfl
  | failAssertion _ => exact h.same (.killed rfl rfl) rfl
  | reportAssertion _ => exact h.same ⟨rfl, rfl⟩ rfl
  | stop => exact h.same (.killed rfl rfl) rfl

/-- Calls in a row keep the lists in order. -/
theorem Listed.makes {l l' : List Exchange} {s s' : Scheduler σ} (h : s.Listed l)
    (hmakes : s.Makes l' s') : s'.Listed (l ++ l') :=
  hmakes.induction (P := fun l s => s.Listed l) (fun _ _ c hs => hs.after c) h

end Scheduler

end Interleave
