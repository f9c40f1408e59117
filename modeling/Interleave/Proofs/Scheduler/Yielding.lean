import Interleave.Proofs.Scheduler.Passage

/-!
# Suspension points of the operation in control

What can come of a suspension point that is reached by the operation in control, with the dialogue
that goes with it: `Scheduler.Yields` for a scheduling point and `Scheduler.Decides` for a request
for a value. Both are refused at the bound only.
-/

namespace Interleave

variable {σ τ : Type}

namespace Scheduler

/-- Nothing has changed that matters to who is in control. -/
structure Same (s s' : Scheduler σ) : Prop where
  id : s'.id = s.id
  slots : s'.slots = s.slots
  scheduled : s'.scheduled = s.scheduled
  running : s'.running = s.running
  bug : s'.bug = s.bug
  error : s'.error = s.error

/-- The state of a yield once the strategy has been asked: the caller has declared its action. -/
def Declares (s : Scheduler σ) (a : OperationId) (next : Declared) (s' : Scheduler σ) : Prop :=
  (s.updateSlot a (·.declare next)).Same s'

theorem running_handOver (s : Scheduler σ) (current next : OperationId) :
    (s.handOver current next).2.running = s.running := by
  rcases handOver_cases s current next with hstay | ⟨-, hpass⟩
  · rw [hstay]
  · rw [hpass]
    rfl

theorem misuse?_eq_none {s : Scheduler σ} {t : Token} (hid : t.scheduler = s.id)
    (hslot : s.slot? t.operation ≠ none) (hscheduled : s.scheduled = some t.operation) :
    s.misuse? t = none := by
  obtain ⟨slot, hfound⟩ := Option.ne_none_iff_exists'.mp hslot
  simp [misuse?, hid, hfound, hscheduled]

variable [Strategy σ]

/-- What can come of a yield by the operation in control, with its dialogue. -/
inductive Yields (s : Scheduler σ) (a : OperationId) (next : Declared) :
    List Exchange → Reply × Scheduler σ → Prop
  /-- The bound is reached. -/
  | cut {fair : Bool} : Yields s a next [.bound true, .fairness fair] (.canceled, s.cutOff)
  /-- The answer is an error or illegal. -/
  | failed {s₁ : Scheduler σ} {answer : Answer OperationId} {error : StrategyError}
      (declares : s.Declares a next s₁) :
      Yields s a next [.bound false, .operation s₁.snapshots a answer] (.canceled, s₁.abort error)
  /-- The answer contains no operation. -/
  | declined {s₁ : Scheduler σ} {fair : Bool} (declares : s.Declares a next s₁) :
      Yields s a next [.bound false, .operation s₁.snapshots a (.ok none), .fairness fair]
        (.canceled, s₁.exhaust s₁.snapshots)
  /-- A monitor has been hot for too long. -/
  | overheated {s₁ : Scheduler σ} {d : OperationId} {fair : Bool} {monitor : String}
      (declares : s.Declares a next s₁)
      (legal : ∃ op ∈ s₁.snapshots, op.id = d ∧ op.enabled = true) :
      Yields s a next
        [.bound false, .operation s₁.snapshots a (.ok (some d)), .logged (.schedule d),
          .fairness fair]
        (.canceled, s₁.fail (.liveness monitor) (Scheduler.overheated monitor))
  /-- Control is handed over. -/
  | granted {s₁ : Scheduler σ} {op : Snapshot} {fair : Bool} (declares : s.Declares a next s₁)
      (mem : op ∈ s₁.snapshots) (enabled : op.enabled = true) :
      Yields s a next
        [.bound false, .operation s₁.snapshots a (.ok (some op.id)), .logged (.schedule op.id),
          .fairness fair]
        (s₁.handOver a op.id)

theorem declares_heat {s s₁ : Scheduler σ} {a : OperationId} {next : Declared}
    (h : s.Declares a next s₁) : s.Declares a next s₁.heat := by
  rcases heat_cases s₁ with hheat | hheat
  · rw [hheat]
    exact h
  · rw [hheat]
    exact ⟨h.id, h.slots, h.scheduled, h.running, h.bug, h.error⟩

/-- A suspension point of the operation in control is refused at the bound only. -/
theorem refusal?_of_proper {s : Scheduler σ} {t : Token} (hrun : s.running = true)
    (hproper : s.misuse? t = none) :
    (s.refusal? t = none ∧ s.admission t = [.bound false]) ∨
      (s.refusal? t = some s.cutOff ∧
        s.admission t = [.bound true, .fairness (Strategy.isFair s.strategy)]) := by
  cases hbound : Strategy.boundReached s.strategy with
  | false => exact Or.inl (by simp [refusal?, admission, hrun, hproper, hbound])
  | true => exact Or.inr (by simp [refusal?, admission, hrun, hproper, hbound])

/-- An enabled operation has been answered: it is logged, and either a monitor has been hot for too
long or control is handed over. -/
theorem yields_of_dispatch {s s₁ : Scheduler σ} {a d : OperationId} {next : Declared}
    (h : s.Declares a next s₁) (hlegal : ∃ op ∈ s₁.snapshots, op.id = d ∧ op.enabled = true)
    (fair : Bool) :
    s.Yields a next [.bound false, .operation s₁.snapshots a (.ok (some d)), .logged (.schedule d),
      .fairness fair] (s₁.dispatch a d) := by
  -- neither the log nor the heat is shown to the strategy
  let s₂ := { s₁ with schedule := s₁.schedule.push (.schedule d) }.heat
  have hlogged : s.Declares a next { s₁ with schedule := s₁.schedule.push (.schedule d) } :=
    ⟨h.id, h.slots, h.scheduled, h.running, h.bug, h.error⟩
  have hheated : s.Declares a next s₂ := declares_heat hlogged
  have hsnapshots : s₁.snapshots = s₂.snapshots := by
    simp only [snapshots, h.slots, hheated.slots]
  rw [hsnapshots] at hlegal ⊢
  cases hfound : s₂.overheatedMonitor? with
  | some monitor =>
      rw [dispatch_of_overheated (s := s₁) rfl hfound]
      exact .overheated hheated hlegal
  | none =>
      rw [dispatch_of_cool (s := s₁) rfl hfound]
      obtain ⟨op, hmem, rfl, henabled⟩ := hlegal
      exact .granted hheated hmem henabled

theorem yields_of_proper {s : Scheduler σ} {t : Token} (hrun : s.running = true)
    (hproper : s.misuse? t = none) (kind : ActionKind) (targetKind : TargetKind)
    (target : OperationId) :
    s.Yields t.operation ⟨kind, targetKind, target, none⟩
      (s.yieldSaid t ⟨kind, targetKind, target, none⟩) (s.yield t kind targetKind target) := by
  let next : Declared := ⟨kind, targetKind, target, none⟩
  rcases refusal?_of_proper hrun hproper with ⟨href, hadmission⟩ | ⟨href, hadmission⟩
  · let s₁ := (s.asked t next).2
    have hdeclares : s.Declares t.operation next s₁ := ⟨rfl, rfl, rfl, rfl, rfl, rfl⟩
    have hshown : s.shown t next = s₁.snapshots := rfl
    rw [yield_of_admitted href, yieldSaid_of_admitted href, hadmission, hshown]
    -- an error, no operation, or an operation that has to be one of those shown
    rcases (s.asked t next).1 with e | _ | d
    · exact .failed hdeclares
    · exact .declined hdeclares
    · by_cases hlegal : (s₁.snapshots.any fun op => op.id = d && op.enabled) = true
      · rw [resolveSaid_of_legal hlegal, resolve_of_legal hlegal]
        exact yields_of_dispatch hdeclares (by simpa using hlegal) _
      · rw [resolveSaid_of_illegal hlegal, resolve_of_illegal hlegal]
        exact .failed hdeclares
  · rw [yield_of_refused href, yieldSaid_of_refused href, hadmission]
    exact .cut

/-! ## Overheated monitors -/

theorem running_heat (s : Scheduler σ) : s.heat.running = s.running := by
  rcases heat_cases s with hheat | hheat <;> rw [hheat]

variable [Strategy τ]

/-- If the monitors are too hot for any operation, it does not matter which one was answered. -/
theorem dispatch_rehost_of_overheated {s : Scheduler σ} (hrun : s.running = true)
    {current next : OperationId} (hover : (s.dispatch current next).2.running = false)
    (f : Equiv.Perm Nat) {q : τ} (hfair : Strategy.isFair q = Strategy.isFair s.strategy)
    (schedule : Schedule) (next' : OperationId) :
    (s.rehost f q schedule).dispatch current next' =
      rehostResult (s.dispatch current next) f q (schedule.push (.schedule next')) := by
  let s' := { s with schedule := s.schedule.push (.schedule next) }
  let schedule' := schedule.push (.schedule next')
  have hheat : (s'.rehost f q schedule').heat = s'.heat.rehost f q schedule' :=
    heat_rehost s' f q schedule' hfair
  have hmonitor : (s'.heat.rehost f q schedule').overheatedMonitor? = s'.heat.overheatedMonitor? :=
    overheatedMonitor?_rehost s'.heat f q schedule' (by rw [strategy_heat]; exact hfair)
  cases hfound : s'.heat.overheatedMonitor? with
  | some monitor =>
      rw [dispatch_of_overheated (s := s.rehost f q schedule) hheat (hmonitor.trans hfound),
        dispatch_of_overheated (s := s) rfl hfound]
      rfl
  | none =>
      -- without such a monitor the run would go on
      rw [dispatch_of_cool (s := s) rfl hfound] at hover
      have hgoes : (s'.heat.handOver current next).2.running = true := by
        rw [running_handOver, running_heat]
        exact hrun
      rw [hgoes] at hover
      cases hover

/-- A yield that has named an operation was admitted and dispatches to this operation. -/
theorem yield_of_yieldSaid {s : Scheduler σ} {t : Token} {kind : ActionKind}
    {targetKind : TargetKind} {target : OperationId} {choices : List Snapshot} {d : OperationId}
    {fair : Bool}
    (hsaid : s.yieldSaid t ⟨kind, targetKind, target, none⟩ =
      [.bound false, .operation choices t.operation (.ok (some d)), .logged (.schedule d),
        .fairness fair]) :
    let next : Declared := ⟨kind, targetKind, target, none⟩
    s.refusal? t = none ∧ s.shown t next = choices ∧
      Strategy.isFair (s.asked t next).2.strategy = fair ∧
      s.yield t kind targetKind target = (s.asked t next).2.dispatch t.operation d := by
  intro next
  cases href : s.refusal? t with
  | some s' =>
      -- a refusal says less than that
      have hlength := congrArg List.length hsaid
      rw [yieldSaid_of_refused href, admission] at hlength
      split at hlength
      · split at hlength <;> simp at hlength
      · simp at hlength
  | none =>
      have hadmission := admission_of_admitted href
      rw [yieldSaid_of_admitted href, hadmission] at hsaid
      simp only [List.singleton_append, List.cons.injEq, Exchange.operation.injEq, true_and]
        at hsaid
      obtain ⟨⟨hshown, hanswer⟩, hresolved⟩ := hsaid
      rw [hshown, hanswer] at hresolved
      -- an answer that is not legal is not logged
      have hlegal : (choices.any fun op => op.id = d && op.enabled) = true := by
        by_contra hnot
        rw [resolveSaid_of_illegal hnot] at hresolved
        cases hresolved
      rw [resolveSaid_of_legal hlegal] at hresolved
      simp only [List.cons.injEq, Exchange.fairness.injEq, true_and, and_true] at hresolved
      refine ⟨rfl, hshown, hresolved, ?_⟩
      rw [yield_of_admitted href, hshown, hanswer]
      exact resolve_of_legal hlegal t.operation

/-- A yield that ends in an overheated monitor does so whatever legal operation is answered. -/
theorem yield_rehost_of_overheated {s : Scheduler σ} {t : Token} {kind : ActionKind}
    {targetKind : TargetKind} {target : OperationId} {choices : List Snapshot}
    {d d' : OperationId} {fair : Bool}
    (hsaid : s.yieldSaid t ⟨kind, targetKind, target, none⟩ =
      [.bound false, .operation choices t.operation (.ok (some d)), .logged (.schedule d),
        .fairness fair])
    (hover : (s.yield t kind targetKind target).2.running = false) (f : Equiv.Perm Nat)
    (schedule : Schedule) {q q' : τ} (hlegal : ∃ op ∈ choices, op.id = d' ∧ op.enabled = true)
    (h : Follows q [.bound false, .operation choices t.operation (.ok (some d')),
      .logged (.schedule d'), .fairness fair] q') :
    (s.rehost f q schedule).yield (t.relabel f) kind targetKind target =
      rehostResult (s.yield t kind targetKind target) f q' (schedule.push (.schedule d')) := by
  let next : Declared := ⟨kind, targetKind, target, none⟩
  let s₁ := (s.asked t next).2
  obtain ⟨href, hshown, hfair₁, hyield⟩ := yield_of_yieldSaid hsaid
  obtain ⟨q₀, ⟨hbound, rfl⟩, _, hask, _, rfl, _, ⟨hfair, rfl⟩, rfl⟩ := h
  have hrun : s₁.running = true := (admitted_of_refusal?_eq_none href).1
  -- the other scheduler admits the yield as well
  have hadmit : Follows q₀ (s.admission t) q₀ := by
    rw [admission_of_admitted href]
    exact ⟨q₀, ⟨hbound, rfl⟩, rfl⟩
  obtain ⟨-, href'⟩ := refusal?_rehost s f schedule t hadmit
  rw [href, Option.map_none] at href'
  have hshown' : (s.rehost f q₀ schedule).shown (t.relabel f) next = choices := hshown
  -- its strategy is shown the same and names the other operation
  have hasked : (s.rehost f q₀ schedule).asked (t.relabel f) next =
      (.ok (some d'), s₁.rehost f q' schedule) := by
    have hask : Strategy.nextOperation (s.rehost f q₀ schedule).strategy
        ((s.rehost f q₀ schedule).shown (t.relabel f) next) (t.relabel f).operation =
          (.ok (some d'), q') := by
      rw [hshown']
      exact hask
    unfold asked
    rw [hask]
    rfl
  have hyield' : (s.rehost f q₀ schedule).yield (t.relabel f) kind targetKind target =
      (s₁.rehost f q' schedule).dispatch t.operation d' := by
    have hany : (choices.any fun op => op.id = d' && op.enabled) = true := by
      simpa using hlegal
    rw [yield_of_admitted href', hasked, hshown']
    exact resolve_of_legal hany t.operation
  rw [hyield] at hover ⊢
  rw [hyield']
  exact dispatch_rehost_of_overheated hrun hover f (hfair.trans hfair₁.symm) schedule d'

/-! ## Requests for values -/

/-- What can come of a request for a value by the operation in control, with its dialogue. -/
inductive Decides {α : Type} (s : Scheduler σ) (a : OperationId) (exchange : Answer α → Exchange)
    (toChoice : α → Choice) : List Exchange → Option α × Scheduler σ → Prop
  /-- The bound is reached. -/
  | cut {fair : Bool} : Decides s a exchange toChoice [.bound true, .fairness fair] (none, s.cutOff)
  /-- The answer is an error or illegal. -/
  | failed {s₁ : Scheduler σ} {answer : Answer α} {error : StrategyError} (same : s.Same s₁) :
      Decides s a exchange toChoice [.bound false, exchange answer] (none, s₁.abort error)
  /-- The answer contains no value. -/
  | undecided {s₁ : Scheduler σ} (same : s.Same s₁) :
      Decides s a exchange toChoice [.bound false, exchange (.ok none)] (none, s₁.explored)
  /-- The value is logged and announced. -/
  | decided {s₁ : Scheduler σ} {value : α} {d : Decision} (same : s.Same s₁)
      (legal : (exchange (.ok (some value))).Legal) :
      Decides s a exchange toChoice
        [.bound false, exchange (.ok (some value)), .logged d,
          .notice (.chosen a (toChoice value))]
        (some value, s₁)

theorem decides_of_proper {α : Type} {s : Scheduler σ} {t : Token} (hrun : s.running = true)
    (hproper : s.misuse? t = none) (request : σ → Answer α × σ) {exchange : Answer α → Exchange}
    {check : Answer α → Answer α} {toChoice : α → Choice} {toDecision : α → Decision}
    (hnone : ∀ answer, check answer = .ok none → answer = .ok none)
    (hsome : ∀ answer value, check answer = .ok (some value) →
      answer = .ok (some value) ∧ (exchange answer).Legal) :
    s.Decides t.operation exchange toChoice
      (s.valueSaid t request exchange check toChoice toDecision)
      (s.requestValue t request check toChoice toDecision) := by
  rcases refusal?_of_proper hrun hproper with ⟨href, hadmission⟩ | ⟨href, hadmission⟩
  · rw [valueSaid_of_admitted href, requestValue_of_admitted href, hadmission]
    -- what passes the check is the answer of the strategy as it is
    have hnone' := hnone (request s.strategy).1
    have hsome' := hsome (request s.strategy).1
    rcases hcheck : check (request s.strategy).1 with e | _ | value
    · exact .failed ⟨rfl, rfl, rfl, rfl, rfl, rfl⟩
    · rw [hnone' hcheck]
      exact .undecided ⟨rfl, rfl, rfl, rfl, rfl, rfl⟩
    · obtain ⟨hanswer, hlegal⟩ := hsome' value hcheck
      rw [hanswer] at hlegal ⊢
      exact .decided ⟨rfl, rfl, rfl, rfl, rfl, rfl⟩ hlegal
  · rw [valueSaid_of_refused href, requestValue_of_refused href, hadmission]
    exact .cut

theorem decides_nextBoolean {s : Scheduler σ} {t : Token} (hrun : s.running = true)
    (hproper : s.misuse? t = none) (max : UInt32) (fairness : Option String) :
    s.Decides t.operation (.boolean max) .boolean (s.booleanSaid t max fairness)
      (s.nextBoolean t max fairness) := by
  refine decides_of_proper hrun hproper (Strategy.nextBoolean · max)
    (fun _ h => h) fun answer b h => ⟨h, some b, h⟩

theorem decides_nextInteger {s : Scheduler σ} {t : Token} (hrun : s.running = true)
    (hproper : s.misuse? t = none) (max : UInt32) :
    s.Decides t.operation (.integer max) .integer (s.integerSaid t max) (s.nextInteger t max) := by
  refine decides_of_proper hrun hproper (Strategy.nextInteger · max) (fun answer h => ?_)
    fun answer n h => ?_
  · rcases answer with e | _ | n
    · cases h
    · rfl
    · simp only [checkRange] at h
      split at h <;> cases h
  · rcases answer with e | _ | n'
    · cases h
    · cases h
    · simp only [checkRange] at h
      split at h
      · rename_i hrange
        cases h
        exact ⟨rfl, some n, rfl, by simpa using hrange⟩
      · cases h

end Scheduler

end Interleave
