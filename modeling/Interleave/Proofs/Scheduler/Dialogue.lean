import Interleave.Proofs.Scheduler.Slots
import Interleave.Proofs.Strategy.Exchange
import Mathlib.Logic.Equiv.Basic
import Mathlib.Tactic.Simps.Basic

/-!
# What the calls of a scheduler say to its strategy

Every call has a dialogue: the list of exchanges with the strategy that it makes, with the decision
that it logs (`Scheduler.yieldSaid` and its like). The strategy that is asked follows the dialogue,
and apart from the answers a call depends on the strategy in nothing: on another host, that is with
another identity, another schedule and another strategy, it does the same as long as the other
strategy follows the same dialogue (`Scheduler.yield_rehost` and its like). Identities are changed
by a permutation, so that tokens of other schedulers stay foreign.
-/

namespace Interleave

/-- A token of a scheduler with a changed identity. -/
def Token.relabel (t : Token) (f : Equiv.Perm Nat) : Token :=
  ⟨f t.scheduler, t.operation⟩

@[simp]
theorem Token.operation_relabel (t : Token) (f : Equiv.Perm Nat) :
    (t.relabel f).operation = t.operation := rfl

@[simp]
theorem Token.relabel_inj {t t' : Token} {f : Equiv.Perm Nat} :
    t.relabel f = t'.relabel f ↔ t = t' := by
  cases t
  cases t'
  simp [Token.relabel]

/-- A schedule with the decisions of a dialogue appended. -/
def Schedule.extend (schedule : Schedule) (l : List Exchange) : Schedule :=
  schedule ++ (logged l).toArray

namespace Schedule

@[simp]
theorem extend_nil (schedule : Schedule) : schedule.extend [] = schedule := by
  simp [extend]

theorem extend_append (schedule : Schedule) (l l' : List Exchange) :
    schedule.extend (l ++ l') = (schedule.extend l).extend l' := by
  simp [extend, Array.append_assoc]

theorem extend_cons (schedule : Schedule) (e : Exchange) (l : List Exchange) :
    schedule.extend (e :: l) = (schedule.extend [e]).extend l :=
  extend_append schedule [e] l

theorem extend_of_logged_eq_nil (schedule : Schedule) {l : List Exchange} (h : logged l = []) :
    schedule.extend l = schedule := by
  simp [extend, h]

end Schedule

namespace Scheduler

variable {σ τ : Type}

/-- The same state of a run on another host. -/
@[simps]
def rehost (s : Scheduler σ) (f : Equiv.Perm Nat) (q : τ) (schedule : Schedule) :
    Scheduler τ where
  id := f s.id
  config := s.config
  strategy := q
  slots := s.slots
  scheduled := s.scheduled
  running := s.running
  completed := s.completed
  bug := s.bug
  fullyExplored := s.fullyExplored
  boundReached := s.boundReached
  error := s.error
  schedule := schedule
  hotMonitors := s.hotMonitors

@[simp]
theorem rehost_self (s : Scheduler σ) : s.rehost (Equiv.refl Nat) s.strategy s.schedule = s := rfl

/-- A result of a call on another host. -/
def rehostResult {ρ : Type} (r : ρ × Scheduler σ) (f : Equiv.Perm Nat) (q : τ)
    (schedule : Schedule) : ρ × Scheduler τ :=
  (r.1, r.2.rehost f q schedule)

variable (s : Scheduler σ) (f : Equiv.Perm Nat) (q : τ) (schedule : Schedule)

@[simp]
theorem slot?_rehost (id : OperationId) : (s.rehost f q schedule).slot? id = s.slot? id := rfl

theorem strategy_handOver (current next : OperationId) :
    (s.handOver current next).2.strategy = s.strategy := by
  rcases handOver_cases s current next with hstay | ⟨-, hpass⟩
  · rw [hstay]
  · rw [hpass]
    rfl

theorem handOver_rehost (current next : OperationId) :
    (s.rehost f q schedule).handOver current next =
      rehostResult (s.handOver current next) f q schedule := by
  unfold handOver
  split <;> rfl

theorem strategy_create (id : OperationId) (name : String) :
    (s.create id name).2.strategy = s.strategy := by
  rcases create_cases s id name with hknown | ⟨-, hfresh⟩
  · rw [hknown]
  · rw [hfresh]
    rfl

theorem strategy_start (t : Token) : (s.start t).2.strategy = s.strategy := by
  rcases start_cases s t with ⟨slot, -, -, hstart⟩ | ⟨-, hfail⟩
  · rw [hstart]
    rfl
  · rw [hfail]
    rfl

theorem running_create (id : OperationId) (name : String) :
    (s.create id name).2.running = s.running := by
  rcases create_cases s id name with hknown | ⟨-, hfresh⟩
  · rw [hknown]
  · rw [hfresh]
    rfl

theorem create_rehost (id : OperationId) (name : String) :
    (s.rehost f q schedule).create id name =
      ((s.create id name).1.relabel f, (s.create id name).2.rehost f q schedule) := by
  unfold create
  rw [slot?_rehost]
  split <;> rfl

theorem start_rehost (t : Token) :
    (s.rehost f q schedule).start (t.relabel f) = rehostResult (s.start t) f q schedule := by
  have hid : decide ((t.relabel f).scheduler = (s.rehost f q schedule).id) =
      decide (t.scheduler = s.id) := by
    simp [Token.relabel, rehost]
  unfold start
  rw [hid, slot?_rehost, Token.operation_relabel]
  cases s.slot? t.operation with
  | none => rfl
  | some slot => cases decide (t.scheduler = s.id) <;> rfl

@[simp]
theorem misuse?_rehost (t : Token) :
    (s.rehost f q schedule).misuse? (t.relabel f) = s.misuse? t := by
  have hid : ((t.relabel f).scheduler ≠ (s.rehost f q schedule).id) = (t.scheduler ≠ s.id) := by
    simp [Token.relabel, rehost]
  unfold misuse?
  simp only [hid, Token.operation_relabel, slot?_rehost]
  rfl

/-- The dialogue of a notice: nothing once the run is over. -/
def noticeSaid (s : Scheduler σ) (n : Notice) : List Exchange :=
  if s.running then [.notice n] else []

theorem noticeSaid_of_running {s : Scheduler σ} (h : s.running = true) (n : Notice) :
    s.noticeSaid n = [.notice n] :=
  if_pos h

theorem noticeSaid_of_over {s : Scheduler σ} (h : s.running = false) (n : Notice) :
    s.noticeSaid n = [] :=
  if_neg (by simp [h])

theorem noticeSaid_cases (n : Notice) : s.noticeSaid n = [] ∨ s.noticeSaid n = [.notice n] := by
  cases hrun : s.running with
  | true => exact Or.inr (noticeSaid_of_running hrun n)
  | false => exact Or.inl (noticeSaid_of_over hrun n)

theorem logged_noticeSaid (n : Notice) : logged (s.noticeSaid n) = [] := by
  rcases noticeSaid_cases s n with hsaid | hsaid <;> rw [hsaid] <;> rfl

variable [Strategy σ] [Strategy τ]

/-! ## Suspension points -/

/-- What a suspension point asks before it is admitted. -/
def admission (s : Scheduler σ) (t : Token) : List Exchange :=
  if s.running && (s.misuse? t).isNone then
    if Strategy.boundReached s.strategy then
      [.bound true, .fairness (Strategy.isFair s.strategy)]
    else [.bound false]
  else []

theorem follows_admission (t : Token) : Follows s.strategy (s.admission t) s.strategy := by
  unfold admission
  split
  · cases h : Strategy.boundReached s.strategy with
    | false => simp [follows_cons, Exchange.Moves, h]
    | true => simp [follows_cons, Exchange.Moves, h]
  · rfl

/-- Before it is admitted a suspension point asks about nothing but the bound and fairness. -/
theorem forall_mem_admission {P : Exchange → Prop} (bound : ∀ b, P (.bound b))
    (fairness : ∀ b, P (.fairness b)) (t : Token) : ∀ e ∈ s.admission t, P e := by
  unfold admission
  split
  · split
    · simp [bound, fairness]
    · simp [bound]
  · simp

theorem logged_admission (t : Token) : logged (s.admission t) = [] :=
  List.filterMap_eq_nil_iff.mpr (forall_mem_admission s (fun _ => rfl) (fun _ => rfl) t)

theorem cutOff_rehost (h : Strategy.isFair q = Strategy.isFair s.strategy) :
    (s.rehost f q schedule).cutOff = s.cutOff.rehost f q schedule := by
  have hfair : Strategy.isFair (s.rehost f q schedule).strategy = Strategy.isFair s.strategy := h
  unfold cutOff
  rw [hfair]
  dsimp only
  cases hbug : s.config.boundIsBug with
  | true => simp [rehost, hbug, fail, recordBug, stop]
  | false => simp [rehost, hbug, stop]

/-- A refusal asks about nothing but bound and fairness, which leaves the other strategy as it is.
-/
theorem refusal?_rehost {q q' : τ} (t : Token) (h : Follows q (s.admission t) q') :
    q' = q ∧ (s.rehost f q schedule).refusal? (t.relabel f) =
      (s.refusal? t).map (·.rehost f q schedule) := by
  -- the questions come in the order of the checks, and none is asked behind the first that fails
  unfold admission at h
  cases hrun : s.running with
  | false =>
      rw [hrun] at h
      refine ⟨h, ?_⟩
      simp [refusal?, rehost, hrun, stop]
  | true =>
      cases hmis : s.misuse? t with
      | some m =>
          rw [hrun, hmis] at h
          refine ⟨h, ?_⟩
          have hrun' : (s.rehost f q schedule).running = true := hrun
          simp only [refusal?, hrun, hrun', misuse?_rehost, hmis]
          rfl
      | none =>
          rw [hrun, hmis] at h
          cases hbound : Strategy.boundReached s.strategy with
          | false =>
              simp only [hbound] at h
              obtain ⟨_, ⟨hq, rfl⟩, rfl⟩ := h
              refine ⟨rfl, ?_⟩
              simp [refusal?, hrun, hmis, hbound, hq]
          | true =>
              simp only [hbound] at h
              obtain ⟨_, ⟨hq, rfl⟩, _, ⟨hfair, rfl⟩, rfl⟩ := h
              refine ⟨rfl, ?_⟩
              simp [refusal?, hrun, hmis, hbound, hq, cutOff_rehost s f q' schedule hfair]

/-- The end of a yield: what follows from the strategy's answer. -/
def resolve (s : Scheduler σ) (current : OperationId) (choices : List Snapshot) :
    Answer OperationId → Reply × Scheduler σ
  | .error e => (.canceled, s.abort e)
  | .ok none => (.canceled, s.exhaust choices)
  | .ok (some next) =>
    if choices.any fun op => op.id = next && op.enabled then s.dispatch current next
    else (.canceled, s.abort (.notEnabled next))

/-- The operations shown to the strategy when the caller declares an action. -/
def shown (s : Scheduler σ) (t : Token) (next : Declared) : List Snapshot :=
  (s.updateSlot t.operation (·.declare next)).snapshots

/-- The strategy's answer and the state that resolves it. -/
def asked (s : Scheduler σ) (t : Token) (next : Declared) : Answer OperationId × Scheduler σ :=
  let (answer, strategy) := Strategy.nextOperation s.strategy (s.shown t next) t.operation
  (answer, { s.updateSlot t.operation (·.declare next) with strategy })

theorem yield_of_refused {s s' : Scheduler σ} {t : Token} (h : s.refusal? t = some s')
    (kind : ActionKind) (targetKind : TargetKind) (target : OperationId) :
    s.yield t kind targetKind target = (.canceled, s') := by
  simp [yield, h]

theorem yield_of_admitted {s : Scheduler σ} {t : Token} (h : s.refusal? t = none)
    (kind : ActionKind) (targetKind : TargetKind) (target : OperationId) :
    s.yield t kind targetKind target =
      (s.asked t ⟨kind, targetKind, target, none⟩).2.resolve t.operation
        (s.shown t ⟨kind, targetKind, target, none⟩)
        (s.asked t ⟨kind, targetKind, target, none⟩).1 := by
  simp only [yield, h]
  rfl

/-- An operation that may go on gets control. -/
theorem resolve_of_legal {s : Scheduler σ} {choices : List Snapshot} {next : OperationId}
    (h : (choices.any fun op => op.id = next && op.enabled) = true) (current : OperationId) :
    s.resolve current choices (.ok (some next)) = s.dispatch current next :=
  if_pos h

theorem resolve_of_illegal {s : Scheduler σ} {choices : List Snapshot} {next : OperationId}
    (h : ¬(choices.any fun op => op.id = next && op.enabled) = true) (current : OperationId) :
    s.resolve current choices (.ok (some next)) = (.canceled, s.abort (.notEnabled next)) :=
  if_neg h

/-- An answer ends the run, with an error or without, or it names an operation that may go on. -/
theorem resolve_cases (s : Scheduler σ) (current : OperationId) (choices : List Snapshot)
    (answer : Answer OperationId) :
    (∃ e, s.resolve current choices answer = (.canceled, s.abort e)) ∨
      (answer = .ok none ∧ s.resolve current choices answer = (.canceled, s.exhaust choices)) ∨
      ∃ next, answer = .ok (some next) ∧
        s.resolve current choices answer = s.dispatch current next := by
  rcases answer with e | _ | next
  · exact Or.inl ⟨e, rfl⟩
  · exact Or.inr (Or.inl ⟨rfl, rfl⟩)
  · by_cases hlegal : (choices.any fun op => op.id = next && op.enabled) = true
    · exact Or.inr (Or.inr ⟨next, rfl, resolve_of_legal hlegal current⟩)
    · exact Or.inl ⟨_, resolve_of_illegal hlegal current⟩

/-- What is said and logged once the strategy has answered a yield. -/
def resolveSaid (s : Scheduler σ) (choices : List Snapshot) : Answer OperationId → List Exchange
  | .error _ => []
  | .ok none => [.fairness (Strategy.isFair s.strategy)]
  | .ok (some next) =>
    if choices.any fun op => op.id = next && op.enabled then
      [.logged (.schedule next), .fairness (Strategy.isFair s.strategy)]
    else []

/-- The dialogue of a yield. -/
def yieldSaid (s : Scheduler σ) (t : Token) (next : Declared) : List Exchange :=
  s.admission t ++
    if (s.refusal? t).isSome then []
    else
      let (answer, s') := s.asked t next
      .operation (s.shown t next) t.operation answer :: s'.resolveSaid (s.shown t next) answer

theorem resolveSaid_of_legal {s : Scheduler σ} {choices : List Snapshot} {next : OperationId}
    (h : (choices.any fun op => op.id = next && op.enabled) = true) :
    s.resolveSaid choices (.ok (some next)) =
      [.logged (.schedule next), .fairness (Strategy.isFair s.strategy)] :=
  if_pos h

theorem resolveSaid_of_illegal {s : Scheduler σ} {choices : List Snapshot} {next : OperationId}
    (h : ¬(choices.any fun op => op.id = next && op.enabled) = true) :
    s.resolveSaid choices (.ok (some next)) = [] :=
  if_neg h

theorem yieldSaid_of_refused {s s' : Scheduler σ} {t : Token} (h : s.refusal? t = some s')
    (next : Declared) : s.yieldSaid t next = s.admission t := by
  rw [yieldSaid, h]
  exact List.append_nil _

theorem yieldSaid_of_admitted {s : Scheduler σ} {t : Token} (h : s.refusal? t = none)
    (next : Declared) :
    s.yieldSaid t next =
      s.admission t ++ .operation (s.shown t next) t.operation (s.asked t next).1 ::
        (s.asked t next).2.resolveSaid (s.shown t next) (s.asked t next).1 := by
  rw [yieldSaid, h]
  rfl

/-- Once the strategy has answered, a decision is logged and fairness is asked about, if at all. -/
theorem forall_mem_resolveSaid {P : Exchange → Prop} (fairness : ∀ b, P (.fairness b))
    (logged : ∀ d, P (.logged d)) (choices : List Snapshot) (answer : Answer OperationId) :
    ∀ e ∈ s.resolveSaid choices answer, P e := by
  rcases answer with error | _ | next
  · simp [resolveSaid]
  · simp [resolveSaid, fairness]
  · by_cases hlegal : (choices.any fun op => op.id = next && op.enabled) = true
    · simp [resolveSaid_of_legal hlegal, logged, fairness]
    · simp [resolveSaid_of_illegal hlegal]

theorem forall_mem_yieldSaid {P : Exchange → Prop} (bound : ∀ b, P (.bound b))
    (fairness : ∀ b, P (.fairness b)) (logged : ∀ d, P (.logged d))
    (operation : ∀ choices current answer, P (.operation choices current answer)) (t : Token)
    (next : Declared) : ∀ e ∈ s.yieldSaid t next, P e := by
  intro e he
  cases href : s.refusal? t with
  | some s' =>
      rw [yieldSaid_of_refused href] at he
      exact forall_mem_admission s bound fairness t e he
  | none =>
      rw [yieldSaid_of_admitted href] at he
      rcases List.mem_append.mp he with hadmission | hasked
      · exact forall_mem_admission s bound fairness t e hadmission
      · rcases List.mem_cons.mp hasked with rfl | hresolved
        · exact operation _ _ _
        · exact forall_mem_resolveSaid _ fairness logged _ _ e hresolved

theorem heat_rehost (h : Strategy.isFair q = Strategy.isFair s.strategy) :
    (s.rehost f q schedule).heat = s.heat.rehost f q schedule := by
  unfold heat
  simp only [rehost_config, rehost_strategy, h]
  split <;> rfl

theorem overheatedMonitor?_rehost (h : Strategy.isFair q = Strategy.isFair s.strategy) :
    (s.rehost f q schedule).overheatedMonitor? = s.overheatedMonitor? := by
  unfold overheatedMonitor?
  simp only [rehost_config, rehost_strategy, rehost_hotMonitors, h]

theorem strategy_heat : s.heat.strategy = s.strategy := by
  rcases heat_cases s with hheat | hheat <;> rw [hheat]

theorem exhaust_rehost (choices : List Snapshot)
    (h : Strategy.isFair q = Strategy.isFair s.strategy) :
    (s.rehost f q schedule).exhaust choices = (s.exhaust choices).rehost f q schedule := by
  unfold exhaust
  simp only [rehost_strategy, rehost_hotMonitors, h]
  split
  · rfl
  · split
    · split <;> rfl
    · rfl

theorem dispatch_rehost (current next : OperationId)
    (h : Strategy.isFair q = Strategy.isFair s.strategy) :
    (s.rehost f q schedule).dispatch current next =
      rehostResult (s.dispatch current next) f q (schedule.push (.schedule next)) := by
  -- the decision is logged first; heat, monitors and control follow with it in the schedule
  let s' := { s with schedule := s.schedule.push (.schedule next) }
  let schedule' := schedule.push (.schedule next)
  have hheat : (s'.rehost f q schedule').heat = s'.heat.rehost f q schedule' :=
    heat_rehost s' f q schedule' h
  have hover : (s'.heat.rehost f q schedule').overheatedMonitor? = s'.heat.overheatedMonitor? :=
    overheatedMonitor?_rehost s'.heat f q schedule' (by rw [strategy_heat]; exact h)
  cases hfound : s'.heat.overheatedMonitor? with
  | none =>
      rw [dispatch_of_cool (s := s.rehost f q schedule) hheat (hover.trans hfound),
        dispatch_of_cool (s := s) rfl hfound]
      exact handOver_rehost s'.heat f q schedule' current next
  | some monitor =>
      rw [dispatch_of_overheated (s := s.rehost f q schedule) hheat (hover.trans hfound),
        dispatch_of_overheated (s := s) rfl hfound]
      rfl

/-- The answer decides what a yield does, up to the question whether the strategy is fair. -/
theorem resolve_rehost {q q' : τ} (current : OperationId) (choices : List Snapshot)
    (answer : Answer OperationId) (h : Follows q (s.resolveSaid choices answer) q') :
    q' = q ∧ (s.rehost f q schedule).resolve current choices answer =
      rehostResult (s.resolve current choices answer) f q
        (schedule.extend (s.resolveSaid choices answer)) := by
  rcases answer with e | _ | next
  · refine ⟨h, ?_⟩
    simp only [resolveSaid, Schedule.extend_nil]
    rfl
  · obtain ⟨_, ⟨hfair, rfl⟩, rfl⟩ := h
    refine ⟨rfl, ?_⟩
    simp only [resolve, exhaust_rehost s f q' schedule choices hfair]
    rfl
  · by_cases hlegal : (choices.any fun op => op.id = next && op.enabled) = true
    · rw [resolveSaid_of_legal hlegal] at h ⊢
      obtain ⟨_, rfl, _, ⟨hfair, rfl⟩, rfl⟩ := h
      refine ⟨rfl, ?_⟩
      rw [resolve_of_legal hlegal, resolve_of_legal hlegal,
        dispatch_rehost s f q' schedule current next hfair]
      rfl
    · rw [resolveSaid_of_illegal hlegal] at h ⊢
      refine ⟨h, ?_⟩
      rw [resolve_of_illegal hlegal, resolve_of_illegal hlegal, Schedule.extend_nil]
      rfl

theorem strategy_dispatch (current next : OperationId) :
    (s.dispatch current next).2.strategy = s.strategy := by
  rcases dispatch_cases s current next with ⟨monitor, -, hend⟩ | hpass
  · rw [hend]
    exact strategy_heat _
  · rw [hpass, strategy_handOver]
    exact strategy_heat _

theorem strategy_resolve (current : OperationId) (choices : List Snapshot)
    (answer : Answer OperationId) :
    (s.resolve current choices answer).2.strategy = s.strategy := by
  rcases resolve_cases s current choices answer with
    ⟨e, hend⟩ | ⟨-, hend⟩ | ⟨next, -, hdispatch⟩
  · rw [hend]
    rfl
  · rw [hend]
    exact strategy_exhaust s choices
  · rw [hdispatch]
    exact strategy_dispatch s current next

theorem follows_resolve (choices : List Snapshot) (answer : Answer OperationId) :
    Follows s.strategy (s.resolveSaid choices answer) s.strategy := by
  rcases answer with e | _ | next
  · rfl
  · exact ⟨_, ⟨rfl, rfl⟩, rfl⟩
  · by_cases hlegal : (choices.any fun op => op.id = next && op.enabled) = true
    · rw [resolveSaid_of_legal hlegal]
      exact ⟨_, rfl, _, ⟨rfl, rfl⟩, rfl⟩
    · rw [resolveSaid_of_illegal hlegal]
      rfl

theorem strategy_of_refused {s s' : Scheduler σ} {t : Token} (h : s.refusal? t = some s') :
    s'.strategy = s.strategy := by
  cases refuses_of_refused h with
  | ended => rfl
  | misused => rfl
  | bound => rcases cutOff_cases s with ⟨message, hcut⟩ | hcut <;> rw [hcut] <;> rfl

theorem follows_yield (t : Token) (kind : ActionKind) (targetKind : TargetKind)
    (target : OperationId) :
    Follows s.strategy (s.yieldSaid t ⟨kind, targetKind, target, none⟩)
      (s.yield t kind targetKind target).2.strategy := by
  cases href : s.refusal? t with
  | some s' =>
      rw [yieldSaid_of_refused href, yield_of_refused href, strategy_of_refused href]
      exact follows_admission s t
  | none =>
      rw [yieldSaid_of_admitted href, yield_of_admitted href, strategy_resolve, follows_append]
      refine ⟨s.strategy, follows_admission s t, ?_⟩
      refine ⟨(s.asked t ⟨kind, targetKind, target, none⟩).2.strategy, rfl, ?_⟩
      exact follows_resolve _ _ _

/-- A yield does the same on another host whose strategy follows the same dialogue. -/
theorem yield_rehost {q q' : τ} (t : Token) (kind : ActionKind) (targetKind : TargetKind)
    (target : OperationId) (h : Follows q (s.yieldSaid t ⟨kind, targetKind, target, none⟩) q') :
    (s.rehost f q schedule).yield (t.relabel f) kind targetKind target =
      rehostResult (s.yield t kind targetKind target) f q'
        (schedule.extend (s.yieldSaid t ⟨kind, targetKind, target, none⟩)) := by
  -- admission logs nothing, and a refusal ends the yield on both sides
  cases href : s.refusal? t with
  | some s' =>
      rw [yieldSaid_of_refused href] at h ⊢
      obtain ⟨rfl, href'⟩ := refusal?_rehost s f schedule t h
      rw [href] at href'
      rw [yield_of_refused href, yield_of_refused href',
        Schedule.extend_of_logged_eq_nil _ (logged_admission s t)]
      rfl
  | none =>
      rw [yieldSaid_of_admitted href] at h ⊢
      obtain ⟨q₀, hadm, q₁, hask, hrest⟩ := follows_append.mp h
      obtain ⟨rfl, href'⟩ := refusal?_rehost s f schedule t hadm
      rw [href] at href'
      rw [Schedule.extend_append, Schedule.extend_of_logged_eq_nil _ (logged_admission s t)]
      rw [yield_of_admitted href, yield_of_admitted href']
      -- the other strategy gives the same answer, which is resolved in the same way
      let next : Declared := ⟨kind, targetKind, target, none⟩
      have hask' : Strategy.nextOperation (s.rehost f q₀ schedule).strategy
          ((s.rehost f q₀ schedule).shown (t.relabel f) next) (t.relabel f).operation =
            ((s.asked t next).1, q₁) := hask
      have hasked : (s.rehost f q₀ schedule).asked (t.relabel f) next =
          ((s.asked t next).1, (s.asked t next).2.rehost f q₁ schedule) := by
        unfold asked at hask' ⊢
        rw [hask']
        rfl
      obtain ⟨rfl, hres⟩ := resolve_rehost (s.asked t next).2 f schedule t.operation
        (s.shown t next) (s.asked t next).1 hrest
      rw [hasked]
      exact hres

/-! ## Choices, notices and sends -/

/-- What is said and logged once the strategy has answered a request for a value. -/
def settleSaid {α : Type} (t : Token) (toChoice : α → Choice) (toDecision : α → Decision) :
    Answer α → List Exchange
  | .ok (some value) =>
    [.logged (toDecision value), .notice (.chosen t.operation (toChoice value))]
  | _ => []

theorem follows_settle {α : Type} (t : Token) (toChoice : α → Choice)
    (toDecision : α → Decision) (answer : Answer α) :
    Follows s.strategy (settleSaid t toChoice toDecision answer)
      (s.settle t toChoice toDecision answer).2.strategy := by
  rcases answer with e | _ | value
  · rfl
  · rfl
  · exact ⟨_, rfl, _, rfl, rfl⟩

theorem settle_rehost {α : Type} {q q' : τ} (t : Token) (toChoice : α → Choice)
    (toDecision : α → Decision) (answer : Answer α)
    (h : Follows q (settleSaid t toChoice toDecision answer) q') :
    (s.rehost f q schedule).settle (t.relabel f) toChoice toDecision answer =
      rehostResult (s.settle t toChoice toDecision answer) f q'
        (schedule.extend (settleSaid t toChoice toDecision answer)) := by
  rcases answer with e | _ | value
  · obtain rfl := h
    simp only [settleSaid, Schedule.extend_nil]
    rfl
  · obtain rfl := h
    simp only [settleSaid, Schedule.extend_nil]
    rfl
  · obtain ⟨_, rfl, _, rfl, rfl⟩ := h
    rfl

/-- A request for a value of the given kind, with what is made of the answer. -/
def requestValue {α : Type} (s : Scheduler σ) (t : Token) (request : σ → Answer α × σ)
    (check : Answer α → Answer α) (toChoice : α → Choice) (toDecision : α → Decision) :
    Option α × Scheduler σ :=
  match s.refusal? t with
  | some s => (none, s)
  | none =>
    let (answer, strategy) := request s.strategy
    { s with strategy }.settle t toChoice toDecision (check answer)

/-- The dialogue of a request for a value, which is the given exchange. -/
def valueSaid {α : Type} (s : Scheduler σ) (t : Token) (request : σ → Answer α × σ)
    (exchange : Answer α → Exchange) (check : Answer α → Answer α) (toChoice : α → Choice)
    (toDecision : α → Decision) : List Exchange :=
  s.admission t ++
    if (s.refusal? t).isSome then []
    else
      exchange (request s.strategy).1 ::
        settleSaid t toChoice toDecision (check (request s.strategy).1)

theorem requestValue_of_refused {α : Type} {s s' : Scheduler σ} {t : Token}
    (h : s.refusal? t = some s') (request : σ → Answer α × σ) (check : Answer α → Answer α)
    (toChoice : α → Choice) (toDecision : α → Decision) :
    s.requestValue t request check toChoice toDecision = (none, s') := by
  rw [requestValue, h]

theorem requestValue_of_admitted {α : Type} {s : Scheduler σ} {t : Token}
    (h : s.refusal? t = none) (request : σ → Answer α × σ) (check : Answer α → Answer α)
    (toChoice : α → Choice) (toDecision : α → Decision) :
    s.requestValue t request check toChoice toDecision =
      { s with strategy := (request s.strategy).2 }.settle t toChoice toDecision
        (check (request s.strategy).1) := by
  rw [requestValue, h]

theorem valueSaid_of_refused {α : Type} {s s' : Scheduler σ} {t : Token}
    (h : s.refusal? t = some s') (request : σ → Answer α × σ) (exchange : Answer α → Exchange)
    (check : Answer α → Answer α) (toChoice : α → Choice) (toDecision : α → Decision) :
    s.valueSaid t request exchange check toChoice toDecision = s.admission t := by
  rw [valueSaid, h]
  exact List.append_nil _

theorem valueSaid_of_admitted {α : Type} {s : Scheduler σ} {t : Token} (h : s.refusal? t = none)
    (request : σ → Answer α × σ) (exchange : Answer α → Exchange) (check : Answer α → Answer α)
    (toChoice : α → Choice) (toDecision : α → Decision) :
    s.valueSaid t request exchange check toChoice toDecision =
      s.admission t ++ exchange (request s.strategy).1 ::
        settleSaid t toChoice toDecision (check (request s.strategy).1) := by
  rw [valueSaid, h]
  rfl

/-- Besides the given exchange, a request for a value says nothing but that it is admitted, and the
decision with its notice. -/
theorem forall_mem_valueSaid {α : Type} {P : Exchange → Prop} {exchange : Answer α → Exchange}
    (bound : ∀ b, P (.bound b)) (fairness : ∀ b, P (.fairness b)) (logged : ∀ d, P (.logged d))
    (chosen : ∀ id choice, P (.notice (.chosen id choice)))
    (given : ∀ answer, P (exchange answer)) (t : Token) (request : σ → Answer α × σ)
    (check : Answer α → Answer α) (toChoice : α → Choice) (toDecision : α → Decision) :
    ∀ e ∈ s.valueSaid t request exchange check toChoice toDecision, P e := by
  intro e he
  cases href : s.refusal? t with
  | some s' =>
      rw [valueSaid_of_refused href] at he
      exact forall_mem_admission s bound fairness t e he
  | none =>
      rw [valueSaid_of_admitted href] at he
      rcases List.mem_append.mp he with hadmission | hasked
      · exact forall_mem_admission s bound fairness t e hadmission
      rcases List.mem_cons.mp hasked with rfl | hsettled
      · exact given _
      · have hsettle : ∀ answer : Answer α, ∀ e ∈ settleSaid t toChoice toDecision answer, P e := by
          rintro (error | _ | value)
          · simp [settleSaid]
          · simp [settleSaid]
          · simp [settleSaid, logged, chosen]
        exact hsettle _ e hsettled

section RequestValue

variable {α : Type} (exchange : Answer α → Exchange) (request : σ → Answer α × σ)
  (request' : τ → Answer α × τ)
variable (check : Answer α → Answer α) (toChoice : α → Choice) (toDecision : α → Decision)

theorem follows_requestValue (t : Token)
    (he : ∀ p, (exchange (request p).1).Moves p (request p).2) :
    Follows s.strategy (s.valueSaid t request exchange check toChoice toDecision)
      (s.requestValue t request check toChoice toDecision).2.strategy := by
  cases href : s.refusal? t with
  | some s' =>
      rw [valueSaid_of_refused href, requestValue_of_refused href, strategy_of_refused href]
      exact follows_admission s t
  | none =>
      rw [valueSaid_of_admitted href, requestValue_of_admitted href, follows_append]
      refine ⟨s.strategy, follows_admission s t, (request s.strategy).2, he s.strategy, ?_⟩
      exact follows_settle { s with strategy := (request s.strategy).2 } t toChoice toDecision _

theorem requestValue_rehost {q q' : τ} (t : Token)
    (he : ∀ a p p', (exchange a).Moves p p' → request' p = (a, p'))
    (hlog : ∀ a, (exchange a).logged? = none)
    (h : Follows q (s.valueSaid t request exchange check toChoice toDecision) q') :
    (s.rehost f q schedule).requestValue (t.relabel f) request' check toChoice toDecision =
      rehostResult (s.requestValue t request check toChoice toDecision) f q'
        (schedule.extend (s.valueSaid t request exchange check toChoice toDecision)) := by
  cases href : s.refusal? t with
  | some s' =>
      rw [valueSaid_of_refused href] at h ⊢
      obtain ⟨rfl, href'⟩ := refusal?_rehost s f schedule t h
      rw [href] at href'
      rw [requestValue_of_refused href, requestValue_of_refused href',
        Schedule.extend_of_logged_eq_nil _ (logged_admission s t)]
      rfl
  | none =>
      rw [valueSaid_of_admitted href] at h ⊢
      obtain ⟨q₀, hadm, q₁, hask, hrest⟩ := follows_append.mp h
      obtain ⟨rfl, href'⟩ := refusal?_rehost s f schedule t hadm
      rw [href] at href'
      rw [Schedule.extend_append, Schedule.extend_of_logged_eq_nil _ (logged_admission s t)]
      -- the request itself is not logged, only the value it is settled with
      have hask' := he _ _ _ hask
      have hset := settle_rehost { s with strategy := (request s.strategy).2 } f schedule t
        toChoice toDecision (check (request s.strategy).1) hrest
      have hquiet : schedule.extend [exchange (request s.strategy).1] = schedule :=
        Schedule.extend_of_logged_eq_nil _ (by simp [logged, hlog])
      rw [Schedule.extend_cons, hquiet]
      rw [requestValue_of_admitted href, requestValue_of_admitted href', rehost_strategy, hask']
      exact hset

end RequestValue

/-- The log entry of a Boolean. -/
def booleanDecision (fairness : Option String) (b : Bool) : Decision :=
  match fairness with
  | some uid => .fairBoolean uid b
  | none => .boolean b

/-- The dialogue of a request for a Boolean. -/
def booleanSaid (s : Scheduler σ) (t : Token) (max : UInt32) (fairness : Option String) :
    List Exchange :=
  s.valueSaid t (Strategy.nextBoolean · max) (.boolean max) (fun a => a) .boolean
    (booleanDecision fairness)

/-- The dialogue of a request for an integer. -/
def integerSaid (s : Scheduler σ) (t : Token) (max : UInt32) : List Exchange :=
  s.valueSaid t (Strategy.nextInteger · max) (.integer max) (checkRange max) .integer .integer

theorem follows_nextBoolean (t : Token) (max : UInt32) (fairness : Option String) :
    Follows s.strategy (s.booleanSaid t max fairness)
      (s.nextBoolean t max fairness).2.strategy :=
  follows_requestValue s (.boolean max) (Strategy.nextBoolean · max) (fun a => a) .boolean
    (booleanDecision fairness) t fun _ => rfl

theorem follows_nextInteger (t : Token) (max : UInt32) :
    Follows s.strategy (s.integerSaid t max) (s.nextInteger t max).2.strategy :=
  follows_requestValue s (.integer max) (Strategy.nextInteger · max) (checkRange max) .integer
    .integer t fun _ => rfl

theorem nextBoolean_rehost {q q' : τ} (t : Token) (max : UInt32) (fairness : Option String)
    (h : Follows q (s.booleanSaid t max fairness) q') :
    (s.rehost f q schedule).nextBoolean (t.relabel f) max fairness =
      rehostResult (s.nextBoolean t max fairness) f q'
        (schedule.extend (s.booleanSaid t max fairness)) :=
  requestValue_rehost s f schedule (.boolean max) (Strategy.nextBoolean · max)
    (Strategy.nextBoolean · max) (fun a => a) .boolean (booleanDecision fairness) t
    (fun _ _ _ hask => hask) (fun _ => rfl) h

theorem nextInteger_rehost {q q' : τ} (t : Token) (max : UInt32)
    (h : Follows q (s.integerSaid t max) q') :
    (s.rehost f q schedule).nextInteger (t.relabel f) max =
      rehostResult (s.nextInteger t max) f q' (schedule.extend (s.integerSaid t max)) :=
  requestValue_rehost s f schedule (.integer max) (Strategy.nextInteger · max)
    (Strategy.nextInteger · max) (checkRange max) .integer .integer t
    (fun _ _ _ hask => hask) (fun _ => rfl) h

/-- The dialogue of a send: nothing once the run is over. -/
def sendSaid (s : Scheduler σ) (sender target : OperationId) (event : Event) : List Exchange :=
  if s.running then
    [.send sender target event (Strategy.onSend s.strategy sender target event).1]
  else []

theorem sendSaid_of_running {s : Scheduler σ} (h : s.running = true) (sender target : OperationId)
    (event : Event) :
    s.sendSaid sender target event =
      [.send sender target event (Strategy.onSend s.strategy sender target event).1] :=
  if_pos h

theorem sendSaid_of_over {s : Scheduler σ} (h : s.running = false) (sender target : OperationId)
    (event : Event) : s.sendSaid sender target event = [] :=
  if_neg (by simp [h])

theorem sendSaid_cases (sender target : OperationId) (event : Event) :
    s.sendSaid sender target event = [] ∨
      ∃ delivery, s.sendSaid sender target event = [.send sender target event delivery] := by
  cases hrun : s.running with
  | true => exact Or.inr ⟨_, sendSaid_of_running hrun sender target event⟩
  | false => exact Or.inl (sendSaid_of_over hrun sender target event)

theorem logged_sendSaid (sender target : OperationId) (event : Event) :
    logged (s.sendSaid sender target event) = [] := by
  rcases sendSaid_cases s sender target event with hsaid | ⟨delivery, hsaid⟩ <;> rw [hsaid] <;> rfl

theorem notify_of_running {s : Scheduler σ} (h : s.running = true) (n : Notice) :
    s.notify n =
      { s with hotMonitors := s.monitorsAfter n, strategy := Strategy.observe s.strategy n } :=
  if_pos h

/-- Once the run is over notices are dropped. -/
theorem notify_of_over {s : Scheduler σ} (h : s.running = false) (n : Notice) : s.notify n = s :=
  if_neg (by simp [h])

theorem send_of_running {s : Scheduler σ} (h : s.running = true) (sender target : OperationId)
    (event : Event) :
    s.send sender target event =
      ((Strategy.onSend s.strategy sender target event).1,
        { s with strategy := (Strategy.onSend s.strategy sender target event).2 }) :=
  if_pos h

/-- Once the run is over messages are delivered without a question. -/
theorem send_of_over {s : Scheduler σ} (h : s.running = false) (sender target : OperationId)
    (event : Event) : s.send sender target event = (.deliver, s) :=
  if_neg (by simp [h])

theorem follows_notify (n : Notice) :
    Follows s.strategy (s.noticeSaid n) (s.notify n).strategy := by
  cases hrun : s.running with
  | true =>
      rw [noticeSaid_of_running hrun, notify_of_running hrun]
      exact ⟨_, rfl, rfl⟩
  | false =>
      rw [noticeSaid_of_over hrun, notify_of_over hrun]
      rfl

theorem follows_send (sender target : OperationId) (event : Event) :
    Follows s.strategy (s.sendSaid sender target event)
      (s.send sender target event).2.strategy := by
  cases hrun : s.running with
  | true =>
      rw [sendSaid_of_running hrun, send_of_running hrun]
      exact ⟨_, rfl, rfl⟩
  | false =>
      rw [sendSaid_of_over hrun, send_of_over hrun]
      rfl

theorem notify_rehost {q q' : τ} (n : Notice) (h : Follows q (s.noticeSaid n) q') :
    (s.rehost f q schedule).notify n = (s.notify n).rehost f q' schedule := by
  cases hrun : s.running with
  | false =>
      rw [noticeSaid_of_over hrun] at h
      obtain rfl := h
      rw [notify_of_over hrun]
      exact notify_of_over (s := s.rehost f q' schedule) hrun n
  | true =>
      rw [noticeSaid_of_running hrun] at h
      obtain ⟨_, rfl, rfl⟩ := h
      rw [notify_of_running hrun]
      exact notify_of_running (s := s.rehost f q schedule) hrun n

theorem send_rehost {q q' : τ} (sender target : OperationId) (event : Event)
    (h : Follows q (s.sendSaid sender target event) q') :
    (s.rehost f q schedule).send sender target event =
      rehostResult (s.send sender target event) f q' schedule := by
  cases hrun : s.running with
  | false =>
      rw [sendSaid_of_over hrun] at h
      obtain rfl := h
      rw [send_of_over hrun]
      exact send_of_over (s := s.rehost f q' schedule) hrun sender target event
  | true =>
      rw [sendSaid_of_running hrun] at h
      obtain ⟨q₁, hsend, rfl⟩ := h
      have hsend : Strategy.onSend q sender target event = (_, q') := hsend
      rw [send_of_running hrun, send_of_running (s := s.rehost f q schedule) hrun,
        rehost_strategy, hsend]
      rfl

end Scheduler

end Interleave
