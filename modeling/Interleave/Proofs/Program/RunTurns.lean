import Interleave.Proofs.Program.TakingTurns

/-!
# Turns in a run

A run starts with the turn of the harness. Its dialogue is a path of turns up to the step that stops
it, and behind that step nothing more is said (`Machine.run_turns`). Identities are handed out at
most one a step, so that they do not run out in a run of fewer than `2 ^ 64` steps.
-/

namespace Interleave

variable {σ τ β : Type}

namespace Machine

/-! ## The start of a run -/

/-- Only the harness has a slot, which is active. -/
theorem slot?_start (p : Program β) (i : Nat) (c : Configuration) (q : σ) (x : OperationId) :
    (start p (Scheduler.new i c q)).scheduler.slot? x =
      if x = .harness then some { Slot.fresh .harness "harness" with active := true }
      else none := by
  show [({ Slot.fresh .harness "harness" with active := true } : Slot)].find? (·.id = x) = _
  by_cases hx : x = .harness
  · simp [hx, Slot.fresh]
  · simp [hx, Slot.fresh, Ne.symm hx]

/-- Only the harness has a thread. -/
theorem status?_start (p : Program β) (i : Nat) (c : Configuration) (q : σ) (x : OperationId) :
    (start p (Scheduler.new i c q)).status? x =
      if x = .harness then some (.starting p.main) else none := by
  show Option.map (·.status) ([(⟨⟨i, .harness⟩, .starting p.main⟩ : Thread β)].find?
    (·.token.operation = x)) = _
  by_cases hx : x = .harness
  · simp [hx]
  · simp [hx, Ne.symm hx]

theorem not_creates_start (p : Program β) (i : Nat) (c : Configuration) (q : σ)
    (x child : OperationId) : ¬(start p (Scheduler.new i c q)).Creates x child := by
  rintro ⟨status, hx, hchild⟩
  rw [status?_start] at hx
  split at hx
  · cases hx
    cases hchild
  · cases hx

/-- A run starts with the turn of the harness. -/
theorem at_start (p : Program β) (i : Nat) (c : Configuration) (q : σ) :
    (start p (.new i c q)).At (.holds .harness) := by
  refine ⟨⟨⟨?_, ?_⟩, ?_, rfl, rfl, rfl, rfl, fun x => ?_, ?_, fun x hx => ?_,
    fun x child hc => absurd hc (not_creates_start p i c q x child),
    fun x y child hc _ => absurd hc (not_creates_start p i c q x child)⟩, .starting p.main, ?_,
    rfl⟩
  · intro thread hthread
    rw [List.mem_singleton.mp hthread]
    rfl
  · show [OperationId.harness].Nodup
    simp
  · show [OperationId.harness].Nodup
    simp
  · by_cases hx : x = .harness
    · refine Or.inr ⟨.starting p.main, { Slot.fresh .harness "harness" with active := true }, ?_,
        ?_, ?_⟩
      · rw [status?_start, if_pos hx]
      · rw [slot?_start, if_pos hx]
      · rw [hx]
        exact ⟨by simp, rfl, rfl, rfl, rfl, fun _ => rfl⟩
    · refine Or.inl ⟨?_, ?_, hx⟩
      · rw [status?_start, if_neg hx]
      · rw [slot?_start, if_neg hx]
  · rw [slot?_start, if_pos rfl]
    exact Option.some_ne_none _
  · -- identities at or above the next one are not in use
    rw [slot?_start] at hx
    by_cases heq : x = .harness
    · rw [heq]
      exact Nat.zero_lt_one
    · rw [if_neg heq] at hx
      exact absurd rfl hx
  · rw [status?_start, if_pos rfl]

/-! ## Identities -/

theorem nextOperation_continueWith (m : Machine σ β) {α : Type} (t : Token) (next : α → β)
    (r : Option α × Scheduler σ) : (m.continueWith t next r).nextOperation = m.nextOperation := by
  obtain ⟨value, s⟩ := r
  cases value <;> rfl

variable [Strategy σ]

theorem nextOperation_perform (m : Machine σ β) (t : Token) (pending : Pending β) :
    (m.perform t pending).nextOperation = m.nextOperation := by
  cases pending with
  | start body =>
      simp only [perform]
      split <;> rfl
  | create id name child next => rfl
  | send target name value next =>
      simp only [perform, performSend]
      split <;> rfl
  | receive again next =>
      simp only [perform, performReceive]
      split <;> rfl
  | stop => rfl

theorem nextOperation_suspend (m : Machine σ β) (t : Token) (pending : Pending β)
    (r : Reply × Scheduler σ) : (m.suspend t pending r).nextOperation = m.nextOperation := by
  obtain ⟨reply, s⟩ := r
  cases reply with
  | proceed => exact nextOperation_perform { m with scheduler := s } t pending
  | canceled => rfl
  | parked => rfl

theorem nextOperation_execute (m : Machine σ β) (t : Token) (body : β) (action : Action β) :
    (m.execute t body action).nextOperation = m.nextOperation ∨
      (m.execute t body action).nextOperation = m.nextOperation + 1 := by
  cases action with
  | create name child next => exact Or.inr (nextOperation_suspend _ t _ _)
  | finish => exact Or.inl (nextOperation_suspend _ t _ _)
  | send target name value next => exact Or.inl (nextOperation_suspend _ t _ _)
  | receive next =>
      refine Or.inl ((nextOperation_suspend _ t _ _).trans ?_)
      split <;> rfl
  | boolean fairness next => exact Or.inl (nextOperation_continueWith m t next _)
  | integer max next => exact Or.inl (nextOperation_continueWith m t next _)
  | fail message => exact Or.inl rfl
  | report message next => exact Or.inl rfl
  | monitor name hot next => exact Or.inl rfl
  | log value next => exact Or.inl rfl
  | quiet next => exact Or.inl rfl

/-- A step takes one identity at most. -/
theorem nextOperation_stepThread {p : Program β} {m m' : Machine σ β} {thread : Thread β}
    (h : stepThread p m thread = some m') :
    m'.nextOperation.toNat ≤ m.nextOperation.toNat + 1 := by
  -- only the declaration of a child takes one; a wakeup performs what has been declared before
  have hcases : m'.nextOperation = m.nextOperation ∨ m'.nextOperation = m.nextOperation + 1 := by
    have hstep := ThreadStep.of_stepThread h
    generalize threadSaid p m thread = l at hstep
    cases hstep with
    | starts t body => exact Or.inl (nextOperation_suspend m _ _ _)
    | acts t body => exact nextOperation_execute m _ _ _
    | performs _ => exact Or.inl (nextOperation_perform m _ _)
    | cancels _ | resumes _ => exact Or.inl rfl
  rcases hcases with heq | heq
  · rw [heq]
    exact Nat.le_succ _
  · -- at the end of the 64 bits the next identity is smaller
    rw [heq, UInt64.toNat_add]
    exact Nat.mod_le _ _

/-! ## Runs in parts -/

theorem runFor_of_ended {p : Program β} {m : Machine σ β} (h : step? p m = none) (n : Nat) :
    runFor p n m = m := by
  cases n with
  | zero => rfl
  | succ n => simp [runFor, h]

theorem runSaid_of_ended {p : Program β} {m : Machine σ β} (h : step? p m = none) (n : Nat) :
    runSaid p n m = [] := by
  cases n with
  | zero => rfl
  | succ n => simp [runSaid, h]

theorem runFor_succ_of_step {p : Program β} {m m' : Machine σ β} (h : step? p m = some m')
    (n : Nat) : runFor p (n + 1) m = runFor p n m' := by
  simp [runFor, h]

theorem runSaid_succ_of_step {p : Program β} {m m' : Machine σ β} (h : step? p m = some m')
    (n : Nat) : runSaid p (n + 1) m = stepSaid p m ++ runSaid p n m' := by
  simp [runSaid, h]

theorem runFor_add (p : Program β) (k n : Nat) (m : Machine σ β) :
    runFor p (k + n) m = runFor p n (runFor p k m) := by
  induction k generalizing m with
  | zero => rw [Nat.zero_add]; rfl
  | succ k ih =>
      rw [Nat.succ_add]
      cases hstep : step? p m with
      | none => simp only [runFor_of_ended hstep]
      | some next =>
          rw [runFor_succ_of_step hstep, runFor_succ_of_step hstep]
          exact ih next

theorem runSaid_add (p : Program β) (k n : Nat) (m : Machine σ β) :
    runSaid p (k + n) m = runSaid p k m ++ runSaid p n (runFor p k m) := by
  induction k generalizing m with
  | zero => rw [Nat.zero_add]; rfl
  | succ k ih =>
      rw [Nat.succ_add]
      cases hstep : step? p m with
      | none => simp only [runSaid_of_ended hstep, runFor_of_ended hstep, List.append_nil]
      | some next =>
          rw [runSaid_succ_of_step hstep, runSaid_succ_of_step hstep, runFor_succ_of_step hstep,
            ih next, List.append_assoc]

/-- Behind a step in its middle a run goes on from there. -/
theorem runFor_of_step {p : Program β} {k n : Nat} {m m' : Machine σ β}
    (h : step? p (runFor p k m) = some m') (hk : k < n) :
    runFor p n m = runFor p (n - (k + 1)) m' := by
  obtain ⟨rest, rfl⟩ := Nat.exists_eq_add_of_lt hk
  rw [Nat.add_assoc, runFor_add, runFor_succ_of_step h, ← Nat.add_assoc, Nat.add_right_comm,
    Nat.add_sub_cancel_left]

theorem runSaid_of_step {p : Program β} {k n : Nat} {m m' : Machine σ β}
    (h : step? p (runFor p k m) = some m') (hk : k < n) :
    runSaid p n m = runSaid p k m ++ (stepSaid p (runFor p k m) ++
      runSaid p (n - (k + 1)) m') := by
  obtain ⟨rest, rfl⟩ := Nat.exists_eq_add_of_lt hk
  rw [Nat.add_assoc, runSaid_add, runSaid_succ_of_step h, ← Nat.add_assoc, Nat.add_right_comm,
    Nat.add_sub_cancel_left]

/-! ## Turn by turn -/

/-- The thread is ready if all threads in front of it have to wait. -/
def FirstReady (p : Program β) (m : Machine σ β) (thread : Thread β) : Prop :=
  ∃ before after, m.threads = before ++ thread :: after ∧
    ∀ other ∈ before, stepThread p m other = none

theorem step?_of_firstReady {p : Program β} {m m' : Machine σ β} {thread : Thread β}
    (h : FirstReady p m thread) (hstep : stepThread p m thread = some m') :
    step? p m = some m' := by
  obtain ⟨before, after, hthreads, hbefore⟩ := h
  exact List.findSome?_eq_some_iff.mpr ⟨before, thread, after, hthreads, hstep, hbefore⟩

theorem FirstReady.rehost [Strategy τ] {p : Program β} {m : Machine σ β} {thread : Thread β}
    (h : FirstReady p m thread) (f : Equiv.Perm Nat) (q : τ) (schedule : Schedule) :
    FirstReady p (m.rehost f q schedule) (thread.relabel f) := by
  obtain ⟨before, after, hthreads, hbefore⟩ := h
  refine ⟨before.map (·.relabel f), after.map (·.relabel f), ?_, ?_⟩
  · simp [hthreads]
  · intro other hother
    obtain ⟨old, hold, rfl⟩ := List.mem_map.mp hother
    exact (stepThread_rehost_eq_none f q schedule).mpr (hbefore old hold)

/-- An operation that is to perform what it has declared can do so. -/
theorem At.ready {p : Program β} {m : Machine σ β} {a : OperationId} {next : Declared}
    (h : m.At (.granted a next)) : step? p m ≠ none := by
  obtain ⟨hcontrol, status, slot, hstatus, hslot, henabled, -, hwaits⟩ := h
  obtain ⟨thread, hthread, hop, rfl⟩ := exists_thread_of_status? hstatus
  have hready : stepThread p m thread ≠ none := by
    obtain ⟨slot', hslot', hst⟩ := hcontrol.standing_of_mem hthread
    rw [hop] at hslot' hst
    rw [hslot] at hslot'
    cases hslot'
    unfold stepThread
    -- the turn leaves a thread that is starting or parked, and its slot is active and enabled
    cases hthreadStatus : thread.status with
    | starting body => simp
    | parked pending =>
        have hwake : slot.wake = .proceed := by simp [Slot.wake, hst.active, henabled]
        simp [hop, hslot, hwake]
    | running body =>
        rw [hthreadStatus] at hwaits
        exact hwaits.elim
    | awaiting child next =>
        rw [hthreadStatus] at hwaits
        exact hwaits.elim
    | exited =>
        rw [hthreadStatus] at hwaits
        exact hwaits.elim
  intro hnone
  exact hready (List.findSome?_eq_none_iff.mp hnone thread hthread)

theorem at_step? {p : Program β} {m m' : Machine σ β} {turn : Turn} (h : m.At turn)
    (hwrap : m.nextOperation.toNat + 1 < UInt64.size) (hstep : step? p m = some m') :
    (∃ turn', Turn.Path turn (stepSaid p m) turn' ∧ m'.At turn') ∨
      ∃ a thread, turn = .holds a ∧ FirstReady p m thread ∧
        Stops p m thread (stepSaid p m) m' := by
  obtain ⟨before, thread, after, hthreads, hthread, hbefore, hsaid⟩ :=
    exists_thread_of_step? hstep
  have hmem : thread ∈ m.threads := by
    rw [hthreads]
    simp
  rw [hsaid]
  rcases at_stepThread h hwrap hmem hthread with hgoes | ⟨⟨a, hturn⟩, hstops⟩
  · exact Or.inl hgoes
  · exact Or.inr ⟨a, thread, hturn, ⟨before, after, hthreads, hbefore⟩, hstops⟩

/-- A run stops at the step behind the given number of steps, which is that of the given thread. -/
structure StopsAfter (p : Program β) (m : Machine σ β) (turn : Turn) (k : Nat)
    (thread : Thread β) (m' : Machine σ β) : Prop where
  step : step? p (runFor p k m) = some m'
  ready : FirstReady p (runFor p k m) thread
  stops : Stops p (runFor p k m) thread (stepSaid p (runFor p k m)) m'
  path : ∃ a, Turn.Path turn (runSaid p k m) (.holds a) ∧ (runFor p k m).At (.holds a)

/-- The operations take turns in every run, up to the step that stops it. -/
theorem run_turns {p : Program β} {m : Machine σ β} {turn : Turn} (h : m.At turn) {n : Nat}
    (hwrap : m.nextOperation.toNat + n < UInt64.size) :
    (∃ turn', Turn.Path turn (runSaid p n m) turn' ∧ (runFor p n m).At turn') ∨
      ∃ k thread m', k < n ∧ StopsAfter p m turn k thread m' := by
  induction n generalizing m turn with
  | zero => exact Or.inl ⟨turn, .nil, h⟩
  | succ n ih =>
      cases hstep : step? p m with
      | none =>
          rw [runSaid_of_ended hstep, runFor_of_ended hstep]
          exact Or.inl ⟨turn, .nil, h⟩
      | some m₁ =>
          rcases at_step? h (by omega) hstep with ⟨turn₁, hpath, hat⟩ |
            ⟨a, thread, rfl, hready, hstops⟩
          · -- the rest of the run has one step and one identity less
            obtain ⟨before, thread, after, -, hthread, -, -⟩ := exists_thread_of_step? hstep
            have hnext := nextOperation_stepThread hthread
            rcases ih hat (by omega) with ⟨turn₂, hpath', hat'⟩ | ⟨k, thread, m', hk, hstops⟩
            · refine Or.inl ⟨turn₂, ?_, ?_⟩
              · rw [runSaid_succ_of_step hstep]
                exact hpath.append hpath'
              · rw [runFor_succ_of_step hstep]
                exact hat'
            · -- the rest stops: all it says of its first `k` steps shifts by this one
              refine Or.inr ⟨k + 1, thread, m', Nat.succ_lt_succ hk, ?_⟩
              obtain ⟨b, hpath', hat'⟩ := hstops.path
              refine ⟨?_, ?_, ?_, b, ?_, ?_⟩
              · rw [runFor_succ_of_step hstep]
                exact hstops.step
              · rw [runFor_succ_of_step hstep]
                exact hstops.ready
              · rw [runFor_succ_of_step hstep]
                exact hstops.stops
              · rw [runSaid_succ_of_step hstep]
                exact hpath.append hpath'
              · rw [runFor_succ_of_step hstep]
                exact hat'
          · exact Or.inr ⟨0, thread, m₁, Nat.succ_pos n, hstep, hready, hstops, a, .nil, h⟩

end Machine

end Interleave
