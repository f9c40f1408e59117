import Interleave.Proofs.Program.Dialogue

/-!
# Requests of a run

A step of a program asks the strategy for one decision at most, so that a run of `n` steps makes at
most `n` requests (`Machine.requests_runSaid_le`).
-/

namespace Interleave

variable {σ β : Type} [Strategy σ]

namespace Scheduler

theorem requests_admission (s : Scheduler σ) (t : Token) : requests (s.admission t) = 0 :=
  List.countP_eq_zero.mpr <|
    forall_mem_admission s (fun _ => Bool.false_ne_true) (fun _ => Bool.false_ne_true) t

theorem requests_resolveSaid (s : Scheduler σ) (choices : List Snapshot)
    (answer : Answer OperationId) : requests (s.resolveSaid choices answer) = 0 :=
  List.countP_eq_zero.mpr <| forall_mem_resolveSaid s (fun _ => Bool.false_ne_true)
    (fun _ => Bool.false_ne_true) choices answer

theorem requests_yieldSaid_le (s : Scheduler σ) (t : Token) (next : Declared) :
    requests (s.yieldSaid t next) ≤ 1 := by
  -- admission and resolution ask for nothing, so that only the answer itself counts
  cases href : s.refusal? t with
  | some s' =>
      rw [yieldSaid_of_refused href, requests_admission]
      exact Nat.zero_le 1
  | none =>
      rw [yieldSaid_of_admitted href, requests_append, requests_admission, Nat.zero_add,
        requests_cons, requests_resolveSaid]
      exact Nat.le_refl 1

theorem requests_settleSaid {α : Type} (t : Token) (toChoice : α → Choice)
    (toDecision : α → Decision) (answer : Answer α) :
    requests (settleSaid t toChoice toDecision answer) = 0 := by
  rcases answer with e | _ | value <;> rfl

theorem requests_valueSaid_le {α : Type} (s : Scheduler σ) (t : Token)
    (request : σ → Answer α × σ) (exchange : Answer α → Exchange) (check : Answer α → Answer α)
    (toChoice : α → Choice) (toDecision : α → Decision) :
    requests (s.valueSaid t request exchange check toChoice toDecision) ≤ 1 := by
  cases href : s.refusal? t with
  | some s' =>
      rw [valueSaid_of_refused href, requests_admission]
      exact Nat.zero_le 1
  | none =>
      rw [valueSaid_of_admitted href, requests_append, requests_admission, Nat.zero_add,
        requests_cons, requests_settleSaid]
      exact Bool.toNat_le _

end Scheduler

namespace Machine

theorem requests_suspendSaid (m : Machine σ β) (t : Token) (pending : Pending β)
    (r : Reply × Scheduler σ) : requests (m.suspendSaid t pending r) = 0 := by
  obtain ⟨reply, s⟩ := r
  cases reply with
  | proceed =>
      rcases performSaid_cases { m with scheduler := s } t pending with hsaid | ⟨e, hsaid, -, he⟩
      · simp only [suspendSaid, hsaid, requests_nil]
      · simp only [suspendSaid, hsaid, requests_cons, he, requests_nil]
        rfl
  | canceled => rfl
  | parked => rfl

theorem requests_executeSaid_le (m : Machine σ β) (t : Token) (body : β) (action : Action β) :
    requests (m.executeSaid t body action) ≤ 1 := by
  have hnotice : ∀ n, requests (m.scheduler.noticeSaid n) = 0 := by
    intro n
    rcases m.scheduler.noticeSaid_cases n with hsaid | hsaid <;> rw [hsaid] <;> rfl
  have hact := ActionStep.of_execute m t body action
  generalize m.executeSaid t body action = l, m.execute t body action = m₁ at hact ⊢
  cases hact with
  | @arrives _ m' pending =>
      -- what is performed at once behind a scheduling point asks for nothing
      rw [arriveSaid_eq, requests_append, requests_suspendSaid, Nat.add_zero]
      exact m'.scheduler.requests_yieldSaid_le t _
  | flips | rolls => exact m.scheduler.requests_valueSaid_le t _ _ _ _ _
  | tells =>
      rw [hnotice]
      exact Nat.zero_le 1
  | fails | reports | logs | hides => exact Nat.zero_le 1

theorem requests_threadSaid_le {p : Program β} {m m' : Machine σ β} {thread : Thread β}
    (h : stepThread p m thread = some m') : requests (threadSaid p m thread) ≤ 1 := by
  have hstep := ThreadStep.of_stepThread h
  generalize threadSaid p m thread = l at hstep ⊢
  cases hstep with
  | starts =>
      rw [requests_suspendSaid]
      exact Nat.zero_le 1
  | acts => exact m.requests_executeSaid_le _ _ _
  | @performs t pending =>
      exact Nat.le_trans (Nat.le_of_eq (m.requests_suspendSaid t pending (.proceed, m.scheduler)))
        (Nat.zero_le 1)
  | cancels | resumes => exact Nat.zero_le 1

/-- A run makes at most one request a step. -/
theorem requests_runSaid_le (p : Program β) (n : Nat) (m : Machine σ β) :
    requests (runSaid p n m) ≤ n := by
  induction n generalizing m with
  | zero => exact Nat.le_refl 0
  | succ n ih =>
      unfold runSaid
      cases hstep : step? p m with
      | none => exact Nat.zero_le _
      | some m' =>
          obtain ⟨before, thread, after, -, hthread, -, hsaid⟩ := exists_thread_of_step? hstep
          have hthread := requests_threadSaid_le hthread
          have hrest := ih m'
          simp only [hsaid, requests_append]
          omega

end Machine

end Interleave
