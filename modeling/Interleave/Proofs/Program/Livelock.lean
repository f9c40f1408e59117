import Interleave.Proofs.Program.LockStep
import Interleave.Proofs.Scheduler.Listing

/-!
# Livelocks

No wakeup is lost: whenever the strategy of a run is asked for an operation, all registered
operations are shown to it, an operation is shown as disabled if and only if it has completed or
waits for a message, and the inbox of one that waits is empty (`Machine.Reflects`). The state shown
is the one in which the caller has declared its action, so that this is `Standing` read off the
slots (`Machine.InControl.reflects`).

If the strategy then names no operation, what the run records follows from what was shown
(`Outcome.Judges`): that is decided by `Scheduler.exhaust`, and the threads that are left do nothing
but exit. Both together are `Program.livelocks_are_exact`.
-/

namespace Interleave

variable {σ β : Type}

/-- The snapshots tell how the operations of the machine stand at a scheduling point. -/
structure Machine.Reflects (m : Machine σ β) (choices : List Snapshot) : Prop where
  registered : choices.map Snapshot.id = m.scheduler.slots.map Slot.id
  ascending : (choices.map Snapshot.id).Pairwise (·.value < ·.value)
  disabled : ∀ op ∈ choices, op.enabled = false ↔ op.completed = true ∨ op.waiting = true
  unfinished : ∀ op ∈ choices, op.waiting = true → op.completed = false
  empty : ∀ op ∈ choices, op.waiting = true → m.inbox op.id = []

/-- What is recorded of a run in which the strategy has named none of the operations shown: a
livelock that names those that have not completed; if there are none, a liveness bug of the first
monitor that the dialogue of the run leaves hot, under a fair strategy; and otherwise no bug. -/
structure Outcome.Judges (outcome : Outcome) (choices : List Snapshot) (said : List Exchange)
    (fair : Bool) : Prop where
  livelock_iff : outcome.bug.map (·.kind) = some .livelock ↔ ∃ op ∈ choices, op.completed = false
  livelock : (∃ op ∈ choices, op.completed = false) → outcome.bug = some ⟨.livelock,
    Scheduler.stuckWaiting ((choices.filter (!·.completed)).map (·.name))⟩
  liveness : (∀ op ∈ choices, op.completed = true) → fair = true →
    (∃ monitor, isHot monitor said = true) → ∃ monitor, isHot monitor said = true ∧
      (∀ other, isHot other said = true → monitor ≤ other) ∧
      outcome.bug = some ⟨.liveness monitor, Scheduler.endedHot monitor⟩
  explored : (∀ op ∈ choices, op.completed = true) →
    (fair = false ∨ ∀ monitor, isHot monitor said = false) →
      outcome.fullyExplored = true ∧ outcome.bug = none

/-! ## Where an operation is asked for -/

namespace Scheduler

variable [Strategy σ]

theorem operation_notMem_valueSaid {α : Type} (s : Scheduler σ) (t : Token)
    (request : σ → Answer α × σ) {exchange : Answer α → Exchange} {choices : List Snapshot}
    {current : OperationId} {answer : Answer OperationId}
    (hexchange : ∀ given, exchange given ≠ .operation choices current answer)
    (check : Answer α → Answer α) (toChoice : α → Choice) (toDecision : α → Decision) :
    .operation choices current answer ∉
      s.valueSaid t request exchange check toChoice toDecision := fun hmem =>
  forall_mem_valueSaid s (P := (· ≠ .operation choices current answer)) nofun nofun nofun nofun
    hexchange t request check toChoice toDecision _ hmem rfl

/-- A yield that asks for an operation is admitted, and shows all operations. -/
theorem of_mem_yieldSaid {s : Scheduler σ} {t : Token} {next : Declared} {choices : List Snapshot}
    {current : OperationId} {answer : Answer OperationId}
    (h : .operation choices current answer ∈ s.yieldSaid t next) :
    s.refusal? t = none ∧ choices = s.shown t next ∧ answer = (s.asked t next).1 := by
  let P : Exchange → Prop := (· ≠ .operation choices current answer)
  cases href : s.refusal? t with
  | some s' =>
      rw [yieldSaid_of_refused href] at h
      exact absurd rfl (forall_mem_admission s (P := P) nofun nofun t _ h)
  | none =>
      rw [yieldSaid_of_admitted href] at h
      rcases List.mem_append.mp h with hadmission | hasked
      · exact absurd rfl (forall_mem_admission s (P := P) nofun nofun t _ hadmission)
      · rcases List.mem_cons.mp hasked with heq | hresolved
        · cases heq
          exact ⟨rfl, rfl, rfl⟩
        · exact absurd rfl (forall_mem_resolveSaid _ (P := P) nofun nofun _ _ _ hresolved)

end Scheduler

namespace Machine

variable [Strategy σ]

theorem operation_notMem_performSaid (m : Machine σ β) (t : Token) (pending : Pending β)
    (choices : List Snapshot) (current : OperationId) (answer : Answer OperationId) :
    Exchange.operation choices current answer ∉ m.performSaid t pending := by
  intro hmem
  rcases performSaid_cases m t pending with hsaid | ⟨e, hsaid, -, hrequest⟩
  · simp [hsaid] at hmem
  · rw [hsaid, List.mem_singleton] at hmem
    rw [← hmem] at hrequest
    cases hrequest

theorem operation_notMem_suspendSaid (m : Machine σ β) (t : Token) (pending : Pending β)
    (r : Reply × Scheduler σ) (choices : List Snapshot) (current : OperationId)
    (answer : Answer OperationId) :
    Exchange.operation choices current answer ∉ m.suspendSaid t pending r := by
  obtain ⟨reply, s⟩ := r
  cases reply with
  | proceed => exact operation_notMem_performSaid _ t pending choices current answer
  | canceled => simp [suspendSaid]
  | parked => simp [suspendSaid]

/-- Only a thread that comes to a scheduling point asks for an operation. -/
theorem exists_approach_of_threadSaid {p : Program β} {m : Machine σ β} {thread : Thread β}
    {choices : List Snapshot} {current : OperationId} {answer : Answer OperationId}
    (h : .operation choices current answer ∈ threadSaid p m thread) :
    ∃ body m₁ pending, thread.status = .running body ∧
      m.approach thread.token body (p.act thread.token.operation body) = some (m₁, pending) ∧
      .operation choices current answer ∈
        m₁.scheduler.yieldSaid thread.token (pending.declared thread.token.operation) := by
  unfold threadSaid at h
  cases hstatus : thread.status with
  | running body =>
      simp only [hstatus] at h
      have hact := ActionStep.of_execute m thread.token body (p.act thread.token.operation body)
      generalize haction : p.act thread.token.operation body = action at hact h
      generalize m.executeSaid thread.token body action = l,
        m.execute thread.token body action = m' at hact h
      cases hact with
      | @arrives _ m₁ pending happ =>
          rcases List.mem_append.mp h with hyield | hsuspend
          · exact ⟨body, m₁, pending, rfl, haction ▸ happ, hyield⟩
          · exact absurd hsuspend (operation_notMem_suspendSaid _ _ _ _ choices current answer)
      | flips _ _ | rolls _ _ =>
          exact absurd h (Scheduler.operation_notMem_valueSaid _ _ _ (by simp) _ _ _)
      | tells _ _ _ =>
          rcases m.scheduler.noticeSaid_cases _ with hsaid | hsaid <;> rw [hsaid] at h <;> simp at h
      | fails _ | reports _ _ | logs _ _ | hides _ => simp at h
  | starting body =>
      simp only [hstatus] at h
      exact absurd h (operation_notMem_suspendSaid _ _ _ _ choices current answer)
  | parked pending =>
      simp only [hstatus] at h
      split at h
      · exact absurd h (operation_notMem_performSaid _ _ _ choices current answer)
      · simp at h
  | awaiting child next =>
      simp only [hstatus] at h
      simp at h
  | exited =>
      simp only [hstatus] at h
      simp at h

/-- The step in which an operation is asked for is that of a thread that comes to a scheduling
point. -/
theorem exists_arrival_of_stepSaid {p : Program β} {m : Machine σ β} {choices : List Snapshot}
    {current : OperationId} {answer : Answer OperationId}
    (h : .operation choices current answer ∈ stepSaid p m) :
    ∃ thread ∈ m.threads, ∃ body m₁ pending, thread.status = .running body ∧
      m.approach thread.token body (p.act thread.token.operation body) = some (m₁, pending) ∧
      .operation choices current answer ∈
        m₁.scheduler.yieldSaid thread.token (pending.declared thread.token.operation) ∧
      step? p m = some (m₁.arrive thread.token pending) := by
  unfold stepSaid at h
  split at h
  · rename_i thread hfind
    obtain ⟨body, m₁, pending, hstatus, happ, hmem⟩ := exists_approach_of_threadSaid h
    obtain ⟨hready, before, after, hthreads, hbefore⟩ := List.find?_eq_some_iff_append.mp hfind
    have hfirst : FirstReady p m thread :=
      ⟨before, after, hthreads, fun other hother => by simpa using hbefore other hother⟩
    have hstep : stepThread p m thread = some (m₁.arrive thread.token pending) := by
      rw [← execute_of_approach happ]
      simp only [stepThread, hstatus]
    exact ⟨thread, List.mem_of_find?_eq_some hfind, body, m₁, pending, hstatus, happ, hmem,
      step?_of_firstReady hfirst hstep⟩
  · simp at h

end Machine

/-! ## What is shown -/

namespace Machine

/-- When the thread in control comes to a scheduling point, the operations are shown as they
stand. -/
theorem InControl.reflects {m m₁ : Machine σ β} {a : OperationId} (h : m.InControl a)
    {thread : Thread β} (hthread : thread ∈ m.threads) {body : β}
    (hstatus : thread.status = .running body) {action : Action β} {pending : Pending β}
    (happ : m.approach thread.token body action = some (m₁, pending))
    (hwrap : m.nextOperation.toNat + 1 < UInt64.size)
    (hascending : (m.scheduler.slots.map Slot.id).Pairwise (·.value < ·.value)) :
    m.Reflects
      (m₁.scheduler.shown thread.token (pending.declared thread.token.operation)) := by
  let m₂ := m₁.poised thread.token pending
  have hpoised : m₂.InControl a := h.poise hthread hstatus happ hwrap
  have hshown : m₁.scheduler.shown thread.token (pending.declared thread.token.operation) =
      m₂.scheduler.snapshots := rfl
  have hids : m₂.scheduler.snapshots.map Snapshot.id = m.scheduler.slots.map Slot.id := by
    rw [Scheduler.ids_snapshots, ids_poised, ids_approach happ]
  have hinbox : ∀ x, m₂.inbox x = m.inbox x := fun x => inbox_approach happ x
  -- a snapshot is that of a slot that stands in order
  have hstands : ∀ op ∈ m₂.scheduler.snapshots, ∃ (status : Status β) (slot : Slot),
      op = slot.snapshot ∧ Standing slot.id (slot.id = a) (m.inbox slot.id) status slot := by
    intro op hop
    obtain ⟨slot, hslot, rfl⟩ := List.mem_map.mp hop
    have hfound := Scheduler.slot?_of_mem hpoised.slots hslot
    rcases hpoised.stands slot.id with ⟨-, hnone, -⟩ | ⟨status, slot', -, hfound', hst⟩
    · rw [hfound] at hnone
      cases hnone
    · rw [hfound] at hfound'
      cases hfound'
      exact ⟨status, slot, rfl, hinbox slot.id ▸ hst⟩
  rw [hshown]
  refine ⟨hids, hids ▸ hascending, fun op hop => ?_, fun op hop hwaiting => ?_,
    fun op hop hwaiting => ?_⟩
  · obtain ⟨status, slot, rfl, hst⟩ := hstands op hop
    show slot.enabled = false ↔ slot.completed = true ∨ slot.waiting = true
    rw [hst.enabled, Bool.not_eq_false', Bool.or_eq_true]
  · obtain ⟨status, slot, rfl, hst⟩ := hstands op hop
    have hreceives := hst.waiting.symm.trans hwaiting
    exact hst.completed.trans (Status.isExited_of_receives (Bool.and_eq_true_iff.mp hreceives).1)
  · obtain ⟨status, slot, rfl, hst⟩ := hstands op hop
    have hreceives := hst.waiting.symm.trans hwaiting
    exact List.isEmpty_iff.mp (Bool.and_eq_true_iff.mp hreceives).2

end Machine

/-! ## What is recorded -/

namespace Scheduler

variable [Strategy σ]

/-- Where every operation that has not completed waits, those are the ones a livelock names. -/
theorem exhaust_of_uncompleted {s : Scheduler σ} {choices : List Snapshot}
    (hdisabled : ∀ op ∈ choices, op.enabled = false)
    (hwaiting : ∀ op ∈ choices, op.waiting = !op.completed)
    (hstuck : ∃ op ∈ choices, op.completed = false) :
    s.exhaust choices = s.fail .livelock
      (stuckWaiting ((choices.filter (!·.completed)).map (·.name))) := by
  have hnone : choices.any (·.enabled) = false := by simpa using hdisabled
  have hfilter : choices.filter (·.waiting) = choices.filter (!·.completed) :=
    List.filter_congr hwaiting
  have hnames : ((choices.filter (!·.completed)).map (·.name)).isEmpty = false := by
    obtain ⟨op, hop, hcompleted⟩ := hstuck
    have hmem : op ∈ choices.filter (!·.completed) :=
      List.mem_filter.mpr ⟨hop, by simp [hcompleted]⟩
    simpa using List.ne_nil_of_mem hmem
  simp [exhaust, hnone, hfilter, hnames]

/-- Where nothing waits, the first hot monitor is a bug under a fair strategy. -/
theorem exhaust_of_hot {s : Scheduler σ} {choices : List Snapshot}
    (hdisabled : ∀ op ∈ choices, op.enabled = false) (hidle : ∀ op ∈ choices, op.waiting = false)
    (hfair : Strategy.isFair s.strategy = true) {monitor : String} {temperature : Nat}
    {rest : List (String × Nat)} (hhot : s.hotMonitors = (monitor, temperature) :: rest) :
    s.exhaust choices = s.fail (.liveness monitor) (endedHot monitor) := by
  have hnone : choices.any (·.enabled) = false := by simpa using hdisabled
  have hfilter : choices.filter (·.waiting) = [] := by simpa using hidle
  simp [exhaust, hnone, hfilter, hhot, hfair]

/-- Where nothing waits and no monitor is a bug, the run has been explored. -/
theorem exhaust_of_cool {s : Scheduler σ} {choices : List Snapshot}
    (hidle : ∀ op ∈ choices, op.waiting = false)
    (hcool : Strategy.isFair s.strategy = false ∨ s.hotMonitors = []) :
    s.exhaust choices = s.explored := by
  have hfilter : choices.filter (·.waiting) = [] := by simpa using hidle
  cases hmonitors : s.hotMonitors with
  | nil => simp [exhaust, hfilter, hmonitors]
  | cons entry rest =>
      have hunfair : Strategy.isFair s.strategy = false :=
        hcool.resolve_right fun hnil => by simp [hnil] at hmonitors
      simp [exhaust, hfilter, hmonitors, hunfair]

/-- A yield that is admitted and not answered with an operation ends the run. -/
theorem yield_of_declined {s : Scheduler σ} {t : Token} (href : s.refusal? t = none)
    (kind : ActionKind) (targetKind : TargetKind) (target : OperationId)
    (hnone : (s.asked t ⟨kind, targetKind, target, none⟩).1 = .ok none) :
    s.yield t kind targetKind target =
      (.canceled, (s.asked t ⟨kind, targetKind, target, none⟩).2.exhaust
        (s.shown t ⟨kind, targetKind, target, none⟩)) := by
  rw [yield_of_admitted href, hnone]
  rfl

/-- What the scheduler records when the strategy names no operation. -/
theorem judges_exhaust {s : Scheduler σ} {choices : List Snapshot} {l : List Exchange}
    (hbug : s.bug = none) (hdisabled : ∀ op ∈ choices, op.enabled = false)
    (hwaiting : ∀ op ∈ choices, op.waiting = !op.completed)
    (hlisted : (s.exhaust choices).Listed l) :
    (s.exhaust choices).outcome.Judges choices l
      (Strategy.isFair (s.exhaust choices).strategy) := by
  have hsorted := hlisted.monitors
  have hhot := hlisted.hot
  rw [monitors_exhaust] at hsorted hhot
  rw [strategy_exhaust]
  by_cases hstuck : ∃ op ∈ choices, op.completed = false
  · -- a livelock
    have hnot : ¬∀ op ∈ choices, op.completed = true := by simpa using hstuck
    have hfound : (s.exhaust choices).outcome.bug = some ⟨.livelock,
        stuckWaiting ((choices.filter (!·.completed)).map (·.name))⟩ := by
      rw [exhaust_of_uncompleted hdisabled hwaiting hstuck]
      exact bug_fail hbug _ _
    exact ⟨⟨fun _ => hstuck, fun _ => by rw [hfound]; rfl⟩, fun _ => hfound,
      fun hall => absurd hall hnot, fun hall => absurd hall hnot⟩
  · have hidle : ∀ op ∈ choices, op.waiting = false := fun op hop => by
      rw [hwaiting op hop]
      simpa using fun hcompleted => hstuck ⟨op, hop, hcompleted⟩
    by_cases hcool : Strategy.isFair s.strategy = false ∨ s.hotMonitors = []
    · -- no bug at all
      rw [exhaust_of_cool hidle hcool]
      have hnone : s.explored.outcome.bug = none := hbug
      refine ⟨⟨fun hkind => ?_, fun h => absurd h hstuck⟩, fun h => absurd h hstuck,
        fun _ hfair ⟨monitor, hmonitor⟩ => ?_, fun _ _ => ⟨rfl, hnone⟩⟩
      · rw [hnone] at hkind
        cases hkind
      · have hmem := (hhot monitor).mpr hmonitor
        rcases hcool with hunfair | hnil
        · rw [hfair] at hunfair
          cases hunfair
        · rw [hnil] at hmem
          cases hmem
    · -- the first hot monitor is the least, as they ascend
      obtain ⟨hfair, hne⟩ := not_or.mp hcool
      rw [Bool.not_eq_false] at hfair
      obtain ⟨⟨monitor, temperature⟩, rest, hmonitors⟩ := List.exists_cons_of_ne_nil hne
      rw [hmonitors, List.map_cons, List.pairwise_cons] at hsorted
      have hfirst : isHot monitor l = true := (hhot monitor).mp (by simp [hmonitors])
      have hleast : ∀ other, isHot other l = true → monitor ≤ other := fun other hother => by
        have hmem := (hhot other).mpr hother
        rw [hmonitors, List.map_cons, List.mem_cons] at hmem
        rcases hmem with rfl | hrest
        · exact le_refl _
        · exact le_of_lt (hsorted.1 other hrest)
      rw [exhaust_of_hot hdisabled hidle hfair hmonitors]
      have hfound : (s.fail (.liveness monitor) (endedHot monitor)).outcome.bug =
          some ⟨.liveness monitor, endedHot monitor⟩ := bug_fail hbug _ _
      refine ⟨⟨fun hkind => ?_, fun h => absurd h hstuck⟩, fun h => absurd h hstuck,
        fun _ _ _ => ⟨monitor, hfirst, hleast, hfound⟩, fun _ hnever => ?_⟩
      · rw [hfound] at hkind
        cases hkind
      · rcases hnever with hunfair | hnever
        · rw [hfair] at hunfair
          cases hunfair
        · rw [hnever monitor] at hfirst
          cases hfirst

end Scheduler

namespace Machine

variable [Strategy σ]

/-- The run stops at the scheduling point at which no operation is named. -/
theorem InControl.exhausts {m m₁ : Machine σ β} {a : OperationId} (h : m.InControl a)
    {thread : Thread β} (hthread : thread ∈ m.threads) {body : β}
    (hstatus : thread.status = .running body) {action : Action β} {pending : Pending β}
    (happ : m.approach thread.token body action = some (m₁, pending))
    (hwrap : m.nextOperation.toNat + 1 < UInt64.size)
    (href : m₁.scheduler.refusal? thread.token = none)
    (hnone : (m₁.scheduler.asked thread.token (pending.declared thread.token.operation)).1 =
      .ok none) :
    (m₁.arrive thread.token pending).Halted ∧
      ∃ s : Scheduler σ, s.bug = none ∧ (m₁.arrive thread.token pending).scheduler =
        s.exhaust (m₁.scheduler.shown thread.token
          (pending.declared thread.token.operation)) := by
  let next := pending.declared thread.token.operation
  let s := (m₁.scheduler.asked thread.token next).2
  have hpoised := h.poise hthread hstatus happ hwrap
  have hmem : ⟨thread.token, pending.rest⟩ ∈ (m₁.poised thread.token pending).threads :=
    List.mem_map.mpr ⟨thread, threads_approach happ ▸ hthread, if_pos rfl⟩
  have hyield := Scheduler.yield_of_declined href next.kind next.targetKind next.target
    (by rw [Pending.declared_eta]; exact hnone)
  rw [Pending.declared_eta] at hyield
  have harrive : m₁.arrive thread.token pending =
      { m₁ with scheduler := s.exhaust (m₁.scheduler.shown thread.token next) }.setStatus
        thread.token .exited := by
    rw [arrive_eq, Machine.declare, hyield]
    rfl
  have hid : s.id = m₁.scheduler.id := rfl
  have hids : s.slots.map Slot.id = m₁.scheduler.slots.map Slot.id :=
    Scheduler.ids_updateSlot m₁.scheduler thread.token.operation (f := (·.declare next))
      fun _ => rfl
  rw [harrive]
  exact ⟨hpoised.halt_poised hmem (h.running_eq hthread hstatus) hid hids
    (Scheduler.stopped_exhaust s _), s, hpoised.bug, rfl⟩

/-- As long as something is said the run goes on, with some operation in control. -/
theorem exists_inControl {p : Program β} {m m' : Machine σ β} {turn : Turn} (h : m.At turn)
    {k : Nat} (hwrap : m.nextOperation.toNat + k < UInt64.size)
    (hstep : step? p (runFor p k m) = some m') (hsaid : stepSaid p (runFor p k m) ≠ []) :
    ∃ a, (runFor p k m).InControl a := by
  rcases run_turns h hwrap with ⟨turn', -, hat⟩ | ⟨j, thread, stopped, hj, hstops⟩
  · exact hat.inControl
  · -- behind the step that stops it the run is silent
    have hsilent := ((passage_runFor p 1 (runFor p k m)).silent (hstops.rest hj).1).1
    rw [runSaid_succ_of_step hstep] at hsilent
    exact absurd (List.append_eq_nil_iff.mp hsilent).1 hsaid

/-- A run of so many steps hands out at most so many identities. -/
theorem nextOperation_runFor (p : Program β) (k : Nat) (m : Machine σ β) :
    (runFor p k m).nextOperation.toNat ≤ m.nextOperation.toNat + k := by
  induction k generalizing m with
  | zero => exact Nat.le_refl _
  | succ k ih =>
      cases hstep : step? p m with
      | none =>
          rw [runFor_of_ended hstep]
          exact Nat.le_add_right _ _
      | some next =>
          obtain ⟨before, thread, after, -, hthread, -, -⟩ := exists_thread_of_step? hstep
          have hfirst := nextOperation_stepThread hthread
          have hrest := ih next
          rw [runFor_succ_of_step hstep]
          omega

theorem listed_runFor (p : Program β) (i : Nat) (c : Configuration) (q : σ) (k : Nat) :
    (runFor p k (start p (.new i c q))).scheduler.Listed
      (runSaid p k (start p (.new i c q))) := by
  have hstart : (start p (.new i c q)).scheduler.Listed [] :=
    (Scheduler.listed_new i c q).create .harness "harness"
  exact hstart.makes (makes_runFor p k _)

end Machine

/-- A run is made under a strategy that declines a request only where no operation is enabled.
Whenever an operation is asked for, all operations are shown as they stand: one is disabled if and
only if it has completed or waits, and the inbox of one that waits is empty. If none is named, the
run records a livelock if and only if some operation has not completed, which names those that have
not; otherwise it records the least hot monitor, if there is one and the strategy is fair, or that
it has been fully explored. -/
theorem Program.livelocks_are_exact [Strategy σ] (p : Program β) (c : Configuration) (i : Nat)
    (a : σ) (hdecided : ∀ e ∈ p.heard Machine.stepLimit (.new i c a), e.Decided) :
    let start := Machine.start p (.new i c a)
    let run := p.run (.new i c a)
    ∀ k < Machine.stepLimit, ∀ choices current answer,
      .operation choices current answer ∈ Machine.stepSaid p (Machine.runFor p k start) →
        (Machine.runFor p k start).Reflects choices ∧
        (answer = .ok none → run.scheduler.outcome.Judges choices
          (Machine.runSaid p Machine.stepLimit start)
          (Strategy.isFair run.scheduler.strategy)) := by
  intro start run k hk choices current answer hmem
  obtain ⟨thread, hthread, body, m₁, pending, hstatus, happ, hyield, hstep⟩ :=
    Machine.exists_arrival_of_stepSaid hmem
  obtain ⟨href, hshown, hanswer⟩ := Scheduler.of_mem_yieldSaid hyield
  -- the operations are shown as they stand
  have hfirst : start.nextOperation.toNat = 1 := rfl
  have hlimit : Machine.stepLimit + 1 < UInt64.size := by decide
  have hnext := Machine.nextOperation_runFor p k start
  have hwrap : (Machine.runFor p k start).nextOperation.toNat + 1 < UInt64.size := by omega
  obtain ⟨op, hcontrol⟩ := Machine.exists_inControl (Machine.at_start p i c a)
    (show start.nextOperation.toNat + k < UInt64.size by omega) hstep (List.ne_nil_of_mem hmem)
  have hreflects := hcontrol.reflects hthread hstatus happ hwrap
    (Machine.listed_runFor p i c a k).operations
  rw [← hshown] at hreflects
  refine ⟨hreflects, fun hnone => ?_⟩
  subst hnone
  -- the run stops here, and what is left of it changes no more than slots
  obtain ⟨hhalted, s, hbug, hexhaust⟩ :=
    hcontrol.exhausts hthread hstatus happ hwrap href hanswer.symm
  rw [← hshown] at hexhaust
  have hsteps : Machine.stepLimit = (k + 1) + (Machine.stepLimit - (k + 1)) := by omega
  have hstop : Machine.runFor p (k + 1) start = m₁.arrive thread.token pending := by
    rw [Machine.runFor_add, Machine.runFor_succ_of_step hstep]
    rfl
  obtain ⟨slots, hslots⟩ := hhalted.scheduler_runFor (p := p) (Machine.stepLimit - (k + 1))
  have hrun : run.scheduler = { s.exhaust choices with slots } := by
    rw [← hexhaust, ← hslots, ← hstop, ← Machine.runFor_add, ← hsteps]
    rfl
  have hsilent : Machine.runSaid p (Machine.stepLimit - (k + 1))
      (m₁.arrive thread.token pending) = [] :=
    ((Machine.passage_runFor p _ _).silent hhalted.running).1
  have hsaid : Machine.runSaid p Machine.stepLimit start = Machine.runSaid p (k + 1) start := by
    rw [hsteps, Machine.runSaid_add, hstop, hsilent, List.append_nil]
  have hlisted := Machine.listed_runFor p i c a (k + 1)
  rw [hstop, hexhaust] at hlisted
  -- nothing is enabled, so that what has not completed waits
  have hheard : .operation choices current (.ok none) ∈
      p.heard Machine.stepLimit (.new i c a) := by
    rw [p.heard_eq, List.mem_filter]
    refine ⟨?_, rfl⟩
    rw [hsaid, Machine.runSaid_add, Machine.runSaid_succ_of_step hstep]
    simp [hmem]
  have hdisabled : ∀ op ∈ choices, op.enabled = false := hdecided _ hheard
  have hwaiting : ∀ op ∈ choices, op.waiting = !op.completed := by
    intro op hop
    have hwhy := (hreflects.disabled op hop).mp (hdisabled op hop)
    have hlive := hreflects.unfinished op hop
    cases hwaits : op.waiting with
    | true => simp [hlive hwaits]
    | false => simpa [hwaits] using hwhy
  have hjudges := Scheduler.judges_exhaust hbug hdisabled hwaiting hlisted
  rw [hrun, hsaid]
  exact hjudges

/-- A harness with two children, which wait for messages that nobody sends. -/
def twoReceivers : Program Nat where
  act
    | ⟨0⟩, 0 => .create "left" 0 fun _ => 1
    | ⟨0⟩, 1 => .create "right" 0 fun _ => 2
    | ⟨0⟩, _ => .finish
    | _, body => .receive fun _ => body
  main := 0

/-- The names of the operations that have not completed, where none is named. -/
def Exchange.unfinished? : Exchange → Option (List String)
  | .operation choices _ (.ok none) => some ((choices.filter (!·.completed)).map (·.name))
  | _ => none

/-- At the end of the harness both children wait, and the livelock names the two. -/
theorem Program.livelocks_are_exact_of_twoReceivers :
    (∀ e ∈ twoReceivers.heard Machine.stepLimit (.new 0 {} firstEnabled), e.Decided) ∧
      ∃ choices, (Machine.runFor twoReceivers 11
          (.start twoReceivers (.new 0 {} firstEnabled))).Reflects choices ∧
        (choices.filter (!·.completed)).map (·.name) = ["left", "right"] ∧
        (twoReceivers.run (.new 0 {} firstEnabled)).scheduler.outcome.bug =
          some ⟨.livelock, Scheduler.stuckWaiting ["left", "right"]⟩ := by
  have hdecided : ∀ e ∈ twoReceivers.heard Machine.stepLimit (.new 0 {} firstEnabled),
      e.Decided := by
    decide +kernel
  have hlast : (Machine.stepSaid twoReceivers (Machine.runFor twoReceivers 11
      (.start twoReceivers (.new 0 {} firstEnabled)))).filterMap Exchange.unfinished? =
        [["left", "right"]] := by
    decide +kernel
  -- the exchange in which no operation is named
  have hmem : ["left", "right"] ∈ (Machine.stepSaid twoReceivers (Machine.runFor twoReceivers 11
      (.start twoReceivers (.new 0 {} firstEnabled)))).filterMap Exchange.unfinished? := by
    rw [hlast]
    exact List.mem_singleton.mpr rfl
  obtain ⟨e, he, hnames⟩ := List.mem_filterMap.mp hmem
  have hexact := Program.livelocks_are_exact twoReceivers {} 0 firstEnabled hdecided 11
    (by decide)
  cases e with
  | operation choices current answer =>
      rcases answer with error | _ | d
      · cases hnames
      · have hnames : (choices.filter (!·.completed)).map (·.name) = ["left", "right"] :=
          Option.some.inj hnames
        obtain ⟨hreflects, hjudges⟩ := hexact choices current _ he
        have hstuck : ∃ op ∈ choices, op.completed = false := by
          by_contra hall
          have hnil : choices.filter (!·.completed) = [] := by simpa using hall
          rw [hnil] at hnames
          cases hnames
        refine ⟨hdecided, choices, hreflects, hnames, ?_⟩
        rw [(hjudges rfl).livelock hstuck, hnames]
      · cases hnames
  | _ => cases hnames

end Interleave
