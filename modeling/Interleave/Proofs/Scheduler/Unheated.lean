import Interleave.Proofs.Scheduler.Dialogue

/-!
# Monitors that never heat

Whether a strategy is fair matters to a run in two places: a fair run heats its monitors, and it
looks at them and at the bound in another way when it ends. `Unfair` is a strategy that says of
itself that it is not fair and leaves everything else to another one. What a call does under the
other strategy it also does under this one, but for the temperatures, unless it overheats a monitor
or ends the run under both of them (`Scheduler.Unheats`).
-/

namespace Interleave

/-- A strategy that is not fair, and leaves everything else to another one. -/
structure Unfair (σ : Type) where
  inner : σ

namespace Unfair

/-- Pass a request on to the inner strategy. -/
def delegate {σ α : Type} (s : Unfair σ) (request : σ → α × σ) : α × Unfair σ :=
  let (answer, inner) := request s.inner
  (answer, ⟨inner⟩)

end Unfair

instance {σ : Type} [Strategy σ] : Strategy (Unfair σ) where
  nextOperation s choices current := s.delegate fun i => Strategy.nextOperation i choices current
  nextBoolean s max := s.delegate fun i => Strategy.nextBoolean i max
  nextInteger s max := s.delegate fun i => Strategy.nextInteger i max
  forceOperation s id choices current :=
    s.delegate fun i => Strategy.forceOperation i id choices current
  forceBoolean s max b := s.delegate fun i => Strategy.forceBoolean i max b
  forceInteger s max n := s.delegate fun i => Strategy.forceInteger i max n
  prepare s := s.delegate Strategy.prepare
  reset s := ⟨Strategy.reset s.inner⟩
  steps s := Strategy.steps s.inner
  boundReached s := Strategy.boundReached s.inner
  isFair _ := false
  describe s := Strategy.describe s.inner
  observe s n := ⟨Strategy.observe s.inner n⟩
  onSend s sender target event := s.delegate fun i => Strategy.onSend i sender target event
  onEnd s outcome := s.delegate fun i => Strategy.onEnd i outcome

/-- The exchange as it is with a strategy of the given fairness. -/
def Exchange.withFairness (fair : Bool) : Exchange → Exchange
  | .fairness _ => .fairness fair
  | e => e

theorem map_withFairness_of_told {fair : Bool} {l : List Exchange}
    (h : ∀ told, .fairness told ∈ l → told = fair) : l.map (·.withFairness fair) = l := by
  refine (List.map_congr_left fun e he => ?_).trans (List.map_id l)
  cases e with
  | fairness told => exact congrArg Exchange.fairness (h told he).symm
  | _ => rfl

theorem map_withFairness_withFairness (fair fair' : Bool) (l : List Exchange) :
    (l.map (·.withFairness fair')).map (·.withFairness fair) = l.map (·.withFairness fair) := by
  rw [List.map_map]
  refine List.map_congr_left fun e _ => ?_
  cases e <;> rfl

variable {σ : Type}

/-- What a strategy follows, it also follows as an unfair one. -/
theorem Follows.unfair [Strategy σ] {l : List Exchange} {q q' : σ} (h : Follows q l q') :
    Follows (⟨q⟩ : Unfair σ) (l.map (·.withFairness false)) ⟨q'⟩ := by
  induction l generalizing q with
  | nil => exact congrArg Unfair.mk h
  | cons e l ih =>
      obtain ⟨q₁, hmoves, hrest⟩ := h
      refine ⟨⟨q₁⟩, ?_, ih hrest⟩
      cases e with
      | bound reached => exact ⟨hmoves.1, congrArg Unfair.mk hmoves.2⟩
      | fairness fair => exact ⟨rfl, congrArg Unfair.mk hmoves.2⟩
      | operation choices current answer =>
          exact congrArg (Prod.map id Unfair.mk) hmoves
      | boolean max answer => exact congrArg (Prod.map id Unfair.mk) hmoves
      | integer max answer => exact congrArg (Prod.map id Unfair.mk) hmoves
      | notice n => exact congrArg Unfair.mk hmoves
      | send sender target event delivery => exact congrArg (Prod.map id Unfair.mk) hmoves
      | logged d => exact congrArg Unfair.mk hmoves

namespace Scheduler

/-- The state as it is under the unfair strategy: all monitors are as cold as at first. -/
def unheated (s : Scheduler σ) : Scheduler (Unfair σ) :=
  { s.rehost (Equiv.refl Nat) (⟨s.strategy⟩ : Unfair σ) s.schedule with
    hotMonitors := s.hotMonitors.map fun (monitor, _) => (monitor, 0) }

/-! ## Calls that do not suspend -/

theorem create_unheated (s : Scheduler σ) (id : OperationId) (name : String) :
    s.unheated.create id name = ((s.create id name).1, (s.create id name).2.unheated) := by
  have hslot : s.unheated.slot? id = s.slot? id := rfl
  unfold create
  rw [hslot]
  split <;> rfl

theorem insertMonitor_cold (monitor : String) (l : List (String × Nat)) :
    insertMonitor monitor (l.map fun (m, _) => (m, 0)) =
      (insertMonitor monitor l).map fun (m, _) => (m, 0) := by
  induction l with
  | nil => rfl
  | cons entry rest ih =>
      simp only [List.map_cons, insertMonitor]
      split
      · rfl
      · split
        · rfl
        · rw [ih]
          rfl

theorem noticeSaid_unheated (s : Scheduler σ) (n : Notice) :
    s.unheated.noticeSaid n = (s.noticeSaid n).map (·.withFairness false) := by
  have hrun : s.unheated.running = s.running := rfl
  unfold noticeSaid
  rw [hrun]
  split <;> rfl

theorem start_unheated (s : Scheduler σ) (t : Token) :
    s.unheated.start t = ((s.start t).1, (s.start t).2.unheated) := by
  have hslot : s.unheated.slot? t.operation = s.slot? t.operation := rfl
  have hid : s.unheated.id = s.id := rfl
  unfold start
  rw [hslot, hid]
  split <;> rfl

theorem handOver_unheated (s : Scheduler σ) (current next : OperationId) :
    s.unheated.handOver current next =
      ((s.handOver current next).1, (s.handOver current next).2.unheated) := by
  unfold handOver
  split <;> rfl

variable [Strategy σ]

theorem notify_unheated (s : Scheduler σ) (n : Notice) :
    s.unheated.notify n = (s.notify n).unheated := by
  have hmonitors : s.unheated.monitorsAfter n =
      (s.monitorsAfter n).map fun (monitor, _) => (monitor, 0) := by
    cases n with
    | monitored monitor operation hot =>
        cases hot with
        | true => exact insertMonitor_cold monitor s.hotMonitors
        | false => exact List.filter_map
    | _ => rfl
  cases hrun : s.running with
  | false => rw [notify_of_over hrun, notify_of_over (s := s.unheated) hrun]
  | true =>
      rw [notify_of_running hrun, notify_of_running (s := s.unheated) hrun, hmonitors]
      rfl

theorem sendSaid_unheated (s : Scheduler σ) (sender target : OperationId) (event : Event) :
    s.unheated.sendSaid sender target event =
      (s.sendSaid sender target event).map (·.withFairness false) := by
  have hrun : s.unheated.running = s.running := rfl
  unfold sendSaid
  rw [hrun]
  split <;> rfl

theorem send_unheated (s : Scheduler σ) (sender target : OperationId) (event : Event) :
    s.unheated.send sender target event =
      ((s.send sender target event).1, (s.send sender target event).2.unheated) := by
  have hrun : s.unheated.running = s.running := rfl
  unfold send
  rw [hrun]
  split <;> rfl

/-! ## Suspension points -/

/-- How a call that comes to `r` goes under the unfair strategy: in the same way, unless a monitor
overheats or the run is over in any case. -/
inductive Unheats {ρ : Type} (s : Scheduler σ) (r : ρ × Scheduler σ) :
    ρ × Scheduler (Unfair σ) → Prop
  | same : Unheats s r (r.1, r.2.unheated)
  | overheated {r' : ρ × Scheduler (Unfair σ)} (halts : r.2.running = false)
      (bug : s.bug = none → r.2.IsOverheated) : Unheats s r r'
  | halted {r' : ρ × Scheduler (Unfair σ)} (halts : r.2.running = false)
      (halts' : r'.2.running = false) : Unheats s r r'

omit [Strategy σ] in
theorem Unheats.of_bug {ρ : Type} {s s₁ : Scheduler σ} {r : ρ × Scheduler σ}
    {r' : ρ × Scheduler (Unfair σ)} (h : s₁.Unheats r r') (hbug : s₁.bug = s.bug) :
    s.Unheats r r' := by
  cases h with
  | same => exact .same
  | overheated halts bug => exact .overheated halts fun hnone => bug (hbug.trans hnone)
  | halted halts halts' => exact .halted halts halts'

theorem admission_unheated (s : Scheduler σ) (t : Token) :
    s.unheated.admission t = (s.admission t).map (·.withFairness false) := by
  have hadmits : (s.unheated.running && (s.unheated.misuse? t).isNone) =
      (s.running && (s.misuse? t).isNone) := rfl
  have hbound : Strategy.boundReached s.unheated.strategy = Strategy.boundReached s.strategy := rfl
  unfold admission
  rw [hadmits, hbound]
  split
  · split <;> rfl
  · rfl

theorem isSome_refusal?_unheated (s : Scheduler σ) (t : Token) :
    (s.unheated.refusal? t).isSome = (s.refusal? t).isSome := by
  have hrun : s.unheated.running = s.running := rfl
  have hmisuse : s.unheated.misuse? t = s.misuse? t := rfl
  have hbound : Strategy.boundReached s.unheated.strategy = Strategy.boundReached s.strategy := rfl
  unfold refusal?
  rw [hrun, hmisuse, hbound]
  split
  · rfl
  · split
    · rfl
    · split <;> rfl

theorem refusal?_unheated_eq_none {s : Scheduler σ} {t : Token} (h : s.refusal? t = none) :
    s.unheated.refusal? t = none := by
  rw [← Option.isNone_iff_eq_none, ← Option.not_isSome, isSome_refusal?_unheated, h]
  rfl

theorem exists_refusal?_unheated {s s' : Scheduler σ} {t : Token} (h : s.refusal? t = some s') :
    ∃ s'', s.unheated.refusal? t = some s'' := by
  rw [← Option.isSome_iff_exists, isSome_refusal?_unheated, h]
  rfl

theorem unheated_heat (s : Scheduler σ) : s.heat.unheated = s.unheated := by
  rcases heat_cases s with hheat | hheat
  · rw [hheat]
  · rw [hheat]
    unfold unheated
    simp only [List.map_map]
    rfl

/-- Under the unfair strategy a dispatch is a hand-over. -/
theorem dispatch_unheated (s : Scheduler σ) (current next : OperationId) :
    s.Unheats (s.dispatch current next) (s.unheated.dispatch current next) := by
  let s₁ := { s with schedule := s.schedule.push (.schedule next) }
  have hcold : { s.unheated with schedule := s.unheated.schedule.push (.schedule next) }.heat =
      s₁.unheated := by
    show s₁.unheated.heat = _
    unfold heat
    exact if_pos (Bool.or_true _)
  have hnone : s₁.unheated.overheatedMonitor? = none := by
    unfold overheatedMonitor?
    exact if_pos (Bool.or_true _)
  rcases dispatch_cases s current next with ⟨monitor, -, hend⟩ | hpass
  · refine .overheated ?_ fun hbug => ⟨monitor, ?_⟩
    · rw [hend]
      rfl
    · rw [hend]
      refine bug_fail ?_ _ _
      rcases heat_cases s₁ with hheat | hheat <;> exact (congrArg Scheduler.bug hheat).trans hbug
  · rw [dispatch_of_cool hcold hnone, hpass, ← unheated_heat, handOver_unheated]
    exact .same

theorem resolveSaid_unheated (s : Scheduler σ) (choices : List Snapshot)
    (answer : Answer OperationId) :
    s.unheated.resolveSaid choices answer =
      (s.resolveSaid choices answer).map (·.withFairness false) := by
  rcases answer with e | _ | next
  · rfl
  · rfl
  · unfold resolveSaid
    dsimp only
    split <;> rfl

theorem resolve_unheated (s : Scheduler σ) (current : OperationId) (choices : List Snapshot)
    (answer : Answer OperationId) :
    s.Unheats (s.resolve current choices answer) (s.unheated.resolve current choices answer) := by
  rcases answer with e | _ | next
  · exact .same
  · exact .halted (stopped_exhaust s choices).running (stopped_exhaust s.unheated choices).running
  · by_cases hlegal : (choices.any fun op => op.id = next && op.enabled) = true
    · rw [resolve_of_legal hlegal, resolve_of_legal hlegal]
      exact dispatch_unheated s current next
    · rw [resolve_of_illegal hlegal, resolve_of_illegal hlegal]
      exact .same

theorem yieldSaid_unheated (s : Scheduler σ) (t : Token) (next : Declared) :
    s.unheated.yieldSaid t next = (s.yieldSaid t next).map (·.withFairness false) := by
  cases href : s.refusal? t with
  | some s' =>
      obtain ⟨s'', href'⟩ := exists_refusal?_unheated href
      rw [yieldSaid_of_refused href, yieldSaid_of_refused href', admission_unheated]
  | none =>
      have hresolved := resolveSaid_unheated (s.asked t next).2 (s.shown t next) (s.asked t next).1
      rw [yieldSaid_of_admitted href, yieldSaid_of_admitted (refusal?_unheated_eq_none href),
        List.map_append, List.map_cons, ← hresolved, admission_unheated]
      rfl

theorem yield_unheated (s : Scheduler σ) (t : Token) (kind : ActionKind) (targetKind : TargetKind)
    (target : OperationId) :
    s.Unheats (s.yield t kind targetKind target) (s.unheated.yield t kind targetKind target) := by
  cases href : s.refusal? t with
  | some s' =>
      obtain ⟨s'', href'⟩ := exists_refusal?_unheated href
      rw [yield_of_refused href, yield_of_refused href']
      exact .halted (refuses_of_refused href).stopped.running
        (refuses_of_refused href').stopped.running
  | none =>
      rw [yield_of_admitted href, yield_of_admitted (refusal?_unheated_eq_none href)]
      exact (resolve_unheated (s.asked t ⟨kind, targetKind, target, none⟩).2 t.operation
        (s.shown t ⟨kind, targetKind, target, none⟩)
        (s.asked t ⟨kind, targetKind, target, none⟩).1).of_bug rfl

section RequestValue

variable {α : Type} (exchange : Answer α → Exchange) (request : σ → Answer α × σ)
  (request' : Unfair σ → Answer α × Unfair σ)
variable (check : Answer α → Answer α) (toChoice : α → Choice) (toDecision : α → Decision)

theorem settleSaid_unheated (t : Token) (answer : Answer α) :
    (settleSaid t toChoice toDecision answer).map (·.withFairness false) =
      settleSaid t toChoice toDecision answer := by
  rcases answer with e | _ | value <;> rfl

theorem settle_unheated (s : Scheduler σ) (t : Token) (answer : Answer α) :
    s.unheated.settle t toChoice toDecision answer =
      ((s.settle t toChoice toDecision answer).1,
        (s.settle t toChoice toDecision answer).2.unheated) := by
  rcases answer with e | _ | value <;> rfl

variable (hrequest : ∀ q : σ, request' ⟨q⟩ = ((request q).1, ⟨(request q).2⟩))
include hrequest

theorem valueSaid_unheated (hexchange : ∀ a, (exchange a).withFairness false = exchange a)
    (s : Scheduler σ) (t : Token) :
    s.unheated.valueSaid t request' exchange check toChoice toDecision =
      (s.valueSaid t request exchange check toChoice toDecision).map
        (·.withFairness false) := by
  have hasked : request' s.unheated.strategy = _ := hrequest s.strategy
  cases href : s.refusal? t with
  | some s' =>
      obtain ⟨s'', href'⟩ := exists_refusal?_unheated href
      rw [valueSaid_of_refused href, valueSaid_of_refused href', admission_unheated]
  | none =>
      rw [valueSaid_of_admitted href, valueSaid_of_admitted (refusal?_unheated_eq_none href),
        List.map_append, List.map_cons, settleSaid_unheated, hexchange, admission_unheated, hasked]

theorem requestValue_unheated (s : Scheduler σ) (t : Token) :
    s.Unheats (s.requestValue t request check toChoice toDecision)
      (s.unheated.requestValue t request' check toChoice toDecision) := by
  have hasked : request' s.unheated.strategy = _ := hrequest s.strategy
  cases href : s.refusal? t with
  | some s' =>
      obtain ⟨s'', href'⟩ := exists_refusal?_unheated href
      rw [requestValue_of_refused href, requestValue_of_refused href']
      exact .halted (refuses_of_refused href).stopped.running
        (refuses_of_refused href').stopped.running
  | none =>
      have hsettled := settle_unheated toChoice toDecision
        { s with strategy := (request s.strategy).2 } t (check (request s.strategy).1)
      rw [requestValue_of_admitted href,
        requestValue_of_admitted (refusal?_unheated_eq_none href), hasked]
      exact hsettled ▸ .same

end RequestValue

theorem booleanSaid_unheated (s : Scheduler σ) (t : Token) (max : UInt32)
    (fairness : Option String) :
    s.unheated.booleanSaid t max fairness =
      (s.booleanSaid t max fairness).map (·.withFairness false) :=
  valueSaid_unheated (.boolean max) (Strategy.nextBoolean · max) (Strategy.nextBoolean · max)
    (fun a => a) .boolean (booleanDecision fairness) (fun _ => rfl) (fun _ => rfl) s t

theorem nextBoolean_unheated (s : Scheduler σ) (t : Token) (max : UInt32)
    (fairness : Option String) :
    s.Unheats (s.nextBoolean t max fairness) (s.unheated.nextBoolean t max fairness) :=
  requestValue_unheated (Strategy.nextBoolean · max) (Strategy.nextBoolean · max) (fun a => a)
    .boolean (booleanDecision fairness) (fun _ => rfl) s t

theorem integerSaid_unheated (s : Scheduler σ) (t : Token) (max : UInt32) :
    s.unheated.integerSaid t max = (s.integerSaid t max).map (·.withFairness false) :=
  valueSaid_unheated (.integer max) (Strategy.nextInteger · max) (Strategy.nextInteger · max)
    (checkRange max) .integer .integer (fun _ => rfl) (fun _ => rfl) s t

theorem nextInteger_unheated (s : Scheduler σ) (t : Token) (max : UInt32) :
    s.Unheats (s.nextInteger t max) (s.unheated.nextInteger t max) :=
  requestValue_unheated (Strategy.nextInteger · max) (Strategy.nextInteger · max) (checkRange max)
    .integer .integer (fun _ => rfl) s t

end Scheduler

end Interleave
