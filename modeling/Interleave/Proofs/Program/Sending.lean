import Interleave.Proofs.Program.LockStep

/-!
# Where runs part at a send

Two hosts that have said the same up to a send may deliver it differently. The send is the last
thing that is said in its step (`Machine.Sends`), so that the step of the other host ends with the
strategy that has answered there (`Machine.exists_step?_rehost_of_send`). The dialogue of any run is
a path of turns and last words that make no step of the tree (`Machine.exists_turns`).
-/

namespace Interleave

variable {σ τ β : Type}

/-- What stands somewhere in two lists put together stands in the second one or in the first one. -/
theorem append_eq_append_cons {α : Type} {xs ys l₁ l₂ : List α} {a : α}
    (h : xs ++ ys = l₁ ++ a :: l₂) :
    (∃ l, l₁ = xs ++ l ∧ ys = l ++ a :: l₂) ∨ ∃ l, xs = l₁ ++ a :: l := by
  rcases List.append_eq_append_iff.mp h with ⟨l, hl₁, hys⟩ | ⟨l, hxs, hrest⟩
  · exact Or.inl ⟨l, hl₁, hys⟩
  · cases l with
    | nil =>
        rw [List.append_nil] at hxs
        exact Or.inl ⟨[], by rw [hxs, List.append_nil], hrest.symm⟩
    | cons b l =>
        rw [List.cons_append, List.cons.injEq] at hrest
        exact Or.inr ⟨l, by rw [hxs, hrest.1]⟩

/-- Whether the exchange is a send. -/
def Exchange.isSend : Exchange → Bool
  | .send _ _ _ _ => true
  | _ => false

namespace Scheduler

variable [Strategy σ]

omit [Strategy σ] in
theorem isSend_noticeSaid (s : Scheduler σ) (n : Notice) :
    ∀ e ∈ s.noticeSaid n, e.isSend = false := by
  rcases noticeSaid_cases s n with hsaid | hsaid <;> rw [hsaid] <;> simp [Exchange.isSend]

/-- Nothing is sent in a yield. -/
theorem isSend_yieldSaid (s : Scheduler σ) (t : Token) (next : Declared) :
    ∀ e ∈ s.yieldSaid t next, e.isSend = false :=
  forall_mem_yieldSaid s (fun _ => rfl) (fun _ => rfl) (fun _ => rfl) (fun _ _ _ => rfl) t next

/-- Nothing is sent in a request for a value. -/
theorem isSend_valueSaid {α : Type} (s : Scheduler σ) (t : Token) (request : σ → Answer α × σ)
    (exchange : Answer α → Exchange) (check : Answer α → Answer α) (toChoice : α → Choice)
    (toDecision : α → Decision) (hrequest : ∀ answer, (exchange answer).isSend = false) :
    ∀ e ∈ s.valueSaid t request exchange check toChoice toDecision, e.isSend = false :=
  forall_mem_valueSaid s (fun _ => rfl) (fun _ => rfl) (fun _ => rfl) (fun _ _ => rfl) hrequest t
    request check toChoice toDecision

end Scheduler

namespace Machine

/-! ## The step that sends -/

section Sends

variable [Strategy σ] [Strategy τ]

/-- The exchanges end with a send, and a step that is taken with another strategy `q`, which is in
state `q₁` when it is asked about the send, leaves this strategy with its answer. The run goes on
then. -/
def Sends (step : τ → Machine τ β) (l : List Exchange) : Prop :=
  ∀ (l₁ l₂ : List Exchange) (sender target : OperationId) (event : Event) (delivery : Delivery),
    l = l₁ ++ .send sender target event delivery :: l₂ → ∀ q q₁ : τ, Follows q l₁ q₁ →
      (step q).scheduler.strategy = (Strategy.onSend q₁ sender target event).2 ∧
        (step q).scheduler.running = true

theorem sends_of_not_isSend {step : τ → Machine τ β} {l : List Exchange}
    (h : ∀ e ∈ l, e.isSend = false) : Sends step l := by
  rintro l₁ l₂ sender target event delivery rfl
  have hsend := h (.send sender target event delivery) (by simp)
  cases hsend

variable (m : Machine σ β) (f : Equiv.Perm Nat) (schedule : Schedule)

theorem sends_perform (t : Token) (pending : Pending β) :
    Sends (fun q : τ => (m.rehost f q schedule).perform (t.relabel f) pending)
      (m.performSaid t pending) := by
  cases pending with
  | start body =>
      refine sends_of_not_isSend ?_
      simp only [performSaid]
      split
      · simp
      · exact Scheduler.isSend_noticeSaid _ _
  | create id name child next => exact sends_of_not_isSend (Scheduler.isSend_noticeSaid _ _)
  | send target name value next =>
      intro l₁ l₂ sender target' event delivery hl q q₁ hfollows
      cases hrunning : m.scheduler.running with
      | false =>
          rw [performSaid, Scheduler.sendSaid_of_over hrunning] at hl
          simp at hl
      | true =>
          rw [performSaid, Scheduler.sendSaid_of_running hrunning] at hl
          -- the send is all that is said
          cases l₁ with
          | cons e l₁ => simp at hl
          | nil =>
              simp only [List.nil_append, List.cons.injEq, Exchange.send.injEq] at hl
              obtain ⟨⟨rfl, rfl, rfl, -⟩, -⟩ := hl
              rw [follows_nil.mp hfollows]
              have hrun : (m.rehost f q schedule).scheduler.running = true := hrunning
              simp only [perform, performSend, Scheduler.send_of_running hrun]
              split <;> exact ⟨rfl, hrunning⟩
  | receive again next =>
      refine sends_of_not_isSend ?_
      simp only [performSaid]
      split
      · simp
      · exact Scheduler.isSend_noticeSaid _ _
  | stop =>
      refine sends_of_not_isSend ?_
      simp [performSaid]

theorem sends_suspend (t : Token) (pending : Pending β) (r : Reply × Scheduler σ) :
    Sends (fun q : τ => (m.rehost f q schedule).suspend (t.relabel f) pending
      (Scheduler.rehostResult r f q schedule)) (m.suspendSaid t pending r) := by
  obtain ⟨reply, s⟩ := r
  cases reply with
  | proceed => exact sends_perform { m with scheduler := s } f schedule t pending
  | canceled => exact sends_of_not_isSend (by simp [suspendSaid])
  | parked => exact sends_of_not_isSend (by simp [suspendSaid])

theorem sends_arrive (t : Token) (pending : Pending β) :
    Sends (fun q : τ => (m.rehost f q schedule).arrive (t.relabel f) pending)
      (m.arriveSaid t pending) := by
  intro l₁ l₂ sender target event delivery hl q q₁ hfollows
  -- the send belongs to what is performed, so that the yield is the same on the other host
  rw [arriveSaid_eq] at hl
  rcases append_eq_append_cons hl with ⟨l₀, rfl, hrest⟩ | ⟨l₀, hyield⟩
  · obtain ⟨q', hdeclare, hfollows⟩ := follows_append.mp hfollows
    simp only [arrive_eq, declare_rehost m f q schedule t pending hdeclare]
    exact sends_suspend m f _ t pending _ l₀ l₂ sender target event delivery hrest q' q₁ hfollows
  · have hsend := m.scheduler.isSend_yieldSaid t (pending.declared t.operation)
      (.send sender target event delivery) (by rw [hyield]; simp)
    cases hsend

theorem sends_execute (t : Token) (body : β) (action : Action β) :
    Sends (fun q : τ => (m.rehost f q schedule).execute (t.relabel f) body action)
      (m.executeSaid t body action) := by
  have hact := ActionStep.of_execute m t body action
  generalize m.executeSaid t body action = l, m.execute t body action = m' at hact ⊢
  cases hact with
  | @arrives _ m₁ pending happ =>
      intro l₁ l₂ sender target event delivery hl q q₁ hfollows
      dsimp only
      rw [execute_of_approach (approach_rehost f q schedule happ)]
      exact sends_arrive m₁ f schedule t pending l₁ l₂ sender target event delivery hl q q₁ hfollows
  | flips fairness next =>
      exact sends_of_not_isSend
        (m.scheduler.isSend_valueSaid t _ (.boolean 2) _ _ _ fun _ => rfl)
  | rolls max next =>
      exact sends_of_not_isSend
        (m.scheduler.isSend_valueSaid t _ (.integer max) _ _ _ fun _ => rfl)
  | tells name hot next => exact sends_of_not_isSend (Scheduler.isSend_noticeSaid _ _)
  | fails _ | reports _ _ | logs _ _ | hides _ => exact sends_of_not_isSend (by simp)

/-- A step of a thread that sends can be taken on another host that has said the same before. -/
theorem exists_stepThread_of_send {p : Program β} {m m' : Machine σ β} {thread : Thread β}
    (hstep : stepThread p m thread = some m') {l₁ l₂ : List Exchange}
    {sender target : OperationId} {event : Event} {delivery : Delivery}
    (hsaid : threadSaid p m thread = l₁ ++ .send sender target event delivery :: l₂) {q q₁ : τ}
    (hfollows : Follows q l₁ q₁) (f : Equiv.Perm Nat) (schedule : Schedule) :
    ∃ n, stepThread p (m.rehost f q schedule) (thread.relabel f) = some n ∧
      n.scheduler.strategy = (Strategy.onSend q₁ sender target event).2 ∧
      n.scheduler.running = true := by
  have hthread := ThreadStep.of_stepThread hstep
  rw [hsaid] at hthread
  generalize hl : l₁ ++ .send sender target event delivery :: l₂ = l at hthread
  have hspeaks : l ≠ [] := by simp [← hl]
  cases hthread with
  | starts t body =>
      refine ⟨_, rfl, ?_⟩
      simp only [Thread.relabel, rehost_scheduler, Scheduler.start_rehost]
      exact sends_suspend m f schedule t _ _ l₁ l₂ sender target event delivery hl.symm q q₁
        hfollows
  | acts t body =>
      refine ⟨_, rfl, ?_⟩
      exact sends_execute m f schedule t body _ l₁ l₂ sender target event delivery hl.symm q q₁
        hfollows
  | @performs t pending wake =>
      refine ⟨(m.rehost f q schedule).perform (t.relabel f) pending, ?_,
        sends_perform m f schedule t pending l₁ l₂ sender target event delivery hl.symm q q₁
          hfollows⟩
      simp only [stepThread, Thread.relabel, Token.operation_relabel, rehost_scheduler,
        Scheduler.slot?_rehost, wake]
  | cancels _ | resumes _ => exact absurd rfl hspeaks

/-- A step that sends can be taken on another host that has said the same before, and there the
strategy is left with its own answer about the send, and the run goes on. -/
theorem exists_step?_rehost_of_send {p : Program β} {m m' : Machine σ β}
    (hstep : step? p m = some m') {l₁ l₂ : List Exchange} {sender target : OperationId}
    {event : Event} {delivery : Delivery}
    (hsaid : stepSaid p m = l₁ ++ .send sender target event delivery :: l₂) {q q₁ : τ}
    (hfollows : Follows q l₁ q₁) (f : Equiv.Perm Nat) (schedule : Schedule) :
    ∃ n, step? p (m.rehost f q schedule) = some n ∧
      n.scheduler.strategy = (Strategy.onSend q₁ sender target event).2 ∧
      n.scheduler.running = true := by
  obtain ⟨before, thread, after, hthreads, hthread, hbefore, hsame⟩ :=
    exists_thread_of_step? hstep
  rw [hsame] at hsaid
  obtain ⟨n, hnext, hsends⟩ := exists_stepThread_of_send hthread hsaid hfollows f schedule
  have hready : FirstReady p m thread := ⟨before, after, hthreads, hbefore⟩
  exact ⟨n, step?_of_firstReady (hready.rehost f q schedule) hnext, hsends⟩

end Sends

/-! ## Dialogues of runs -/

variable [Strategy σ]

/-- Whatever is said in a run is said in one of its steps. -/
theorem exists_step_of_runSaid {p : Program β} {n : Nat} {m : Machine σ β} {e : Exchange}
    {l₁ l₂ : List Exchange} (h : runSaid p n m = l₁ ++ e :: l₂) :
    ∃ k m' l, k < n ∧ step? p (runFor p k m) = some m' ∧ l₁ = runSaid p k m ++ l ∧
      ∃ l', stepSaid p (runFor p k m) = l ++ e :: l' := by
  induction n generalizing m l₁ with
  | zero => simp [runSaid] at h
  | succ n ih =>
      cases hstep : step? p m with
      | none => simp [runSaid_of_ended hstep] at h
      | some m₁ =>
          rw [runSaid_succ_of_step hstep] at h
          -- the exchange is made in the first step, or behind it
          rcases append_eq_append_cons h with ⟨l, rfl, hrest⟩ | ⟨l, hfirst⟩
          · obtain ⟨k, m', l₀, hk, hstep', rfl, l', hsaid⟩ := ih hrest
            refine ⟨k + 1, m', l₀, Nat.succ_lt_succ hk, ?_, ?_, l', ?_⟩
            · rw [runFor_succ_of_step hstep]
              exact hstep'
            · rw [runSaid_succ_of_step hstep, List.append_assoc]
            · rw [runFor_succ_of_step hstep]
              exact hsaid
          · exact ⟨0, m₁, l₁, Nat.succ_pos n, hstep, rfl, l, hfirst⟩

/-- The dialogue of a run is a path of turns and last words that make no step. -/
theorem exists_turns {p : Program β} {m : Machine σ β} {turn : Turn} (h : m.At turn) {n : Nat}
    (hwrap : m.nextOperation.toNat + n < UInt64.size) :
    ∃ turn' l l', runSaid p n m = l ++ l' ∧ Turn.Path turn l turn' ∧ told l' = [] := by
  rcases run_turns (p := p) h hwrap with ⟨turn', hpath, -⟩ | ⟨k, thread, m', hk, hstops⟩
  · exact ⟨turn', runSaid p n m, [], (List.append_nil _).symm, hpath, rfl⟩
  · obtain ⟨b, hpath, -⟩ := hstops.path
    exact ⟨.holds b, runSaid p k m, stepSaid p (runFor p k m), (hstops.rest hk).2.2, hpath,
      hstops.stops.ahead.1⟩

end Machine

end Interleave
