import Interleave.Proofs.EventTree.Hearing
import Interleave.Proofs.Program.RunTurns

/-!
# How runs end

The operations of a run take turns until a step stops it. `Machine.Finishes` lists what can be said
in that step by a run that ends without an error, and what this means for the bug of the run; behind
it nothing is said (`Machine.exists_finishes`). No ending makes a step of the event tree.
-/

namespace Interleave

variable {σ τ β : Type} [Strategy σ] [Strategy τ]

namespace Machine

/-! ## Steps that stop a run -/

/-- Where a monitor is too hot, the step ends in the same way whatever legal operation is named. -/
theorem Overheats.step?_rehost {p : Program β} {m m' : Machine σ β} {thread : Thread β}
    {choices : List Snapshot} {d d' : OperationId} {fair : Bool}
    (h : Overheats p m thread choices d fair m') (hready : FirstReady p m thread)
    (f : Equiv.Perm Nat) (schedule : Schedule) {q q' : τ}
    (hlegal : ∃ op ∈ choices, op.id = d' ∧ op.enabled = true)
    (hfollow : Follows q [.bound false,
      .operation choices thread.token.operation (.ok (some d')), .logged (.schedule d'),
      .fairness fair] q') :
    step? p (m.rehost f q schedule) =
      some (m'.rehost f q' (schedule.push (.schedule d'))) := by
  obtain ⟨body, m₁, pending, s, hstatus, happ, hsaid, hyield, hover, rfl⟩ := h
  -- the yield is canceled before the named operation would get control
  obtain ⟨t, status⟩ := thread
  cases hstatus
  let schedule' := schedule.push (.schedule d')
  have hcanceled : m₁.arrive t pending = { m₁ with scheduler := s }.setStatus t .exited := by
    rw [arrive_eq, declare, hyield]
    rfl
  have hyield' := Scheduler.yield_rehost_of_overheated
    ((congrArg _ (Pending.declared_eta pending t.operation)).trans hsaid)
    (by rw [hyield]; exact hover) f schedule hlegal hfollow
  rw [hyield] at hyield'
  have harrive : (m₁.rehost f q schedule).arrive (t.relabel f) pending =
      (m₁.arrive t pending).rehost f q' schedule' := by
    rw [hcanceled, ← setStatus_rehost]
    rw [arrive_eq, declare, Token.operation_relabel, rehost_scheduler, hyield']
    rfl
  refine step?_of_firstReady (hready.rehost f q schedule) ?_
  show some ((m.rehost f q schedule).execute (t.relabel f) body (p.act t.operation body)) = _
  rw [execute_of_approach (approach_rehost f q schedule happ), harrive]

/-- A step that stops the run leaves it over. -/
theorem Stops.isOver {p : Program β} {m m' : Machine σ β} {thread : Thread β} {l : List Exchange}
    (h : Stops p m thread l m') : m'.scheduler.running = false := by
  cases h with
  | asserted stopped => exact stopped
  | failed halted => exact halted.running
  | cut halted => exact halted.running
  | declined halted => exact halted.running
  | undecided halted => exact halted.running
  | overheated overheats halted => exact halted.running

/-- A step that stops the run decides about its bug. -/
theorem Stops.bug_runFor {p : Program β} {m m' : Machine σ β} {thread : Thread β}
    {l : List Exchange} (h : Stops p m thread l m') (n : Nat) :
    (runFor p n m').scheduler.bug = m'.scheduler.bug := by
  cases h with
  | asserted stopped bug =>
      -- the threads that are left may still come to a bug, but not to a first one
      rw [bug]
      exact (passage_runFor p n m').bug _ bug
  | failed halted => exact halted.bug_runFor n
  | cut halted => exact halted.bug_runFor n
  | declined halted => exact halted.bug_runFor n
  | undecided halted => exact halted.bug_runFor n
  | overheated overheats halted => exact halted.bug_runFor n

/-- Behind the step that stops it the run is over and says nothing. -/
theorem StopsAfter.rest {p : Program β} {m m' : Machine σ β} {turn : Turn} {k n : Nat}
    {thread : Thread β} (h : StopsAfter p m turn k thread m') (hk : k < n) :
    (runFor p n m).scheduler.running = false ∧
      (runFor p n m).scheduler.bug = m'.scheduler.bug ∧
      runSaid p n m = runSaid p k m ++ stepSaid p (runFor p k m) := by
  have hsilent := (passage_runFor p (n - (k + 1)) m').silent h.stops.isOver
  rw [runFor_of_step h.step hk, runSaid_of_step h.step hk, hsilent.1, List.append_nil]
  exact ⟨hsilent.2, h.stops.bug_runFor _, rfl⟩

/-! ## Runs that have ended -/

/-- The last words of a run that ends without an error, behind the `k` steps of it in which its
operations take turns. -/
inductive Finishes (p : Program β) (m : Machine σ β) (n k : Nat) : List Exchange → Prop
  /-- An assertion has failed. -/
  | silent : Finishes p m n k []
  /-- The run is cut off at the bound. -/
  | cut {fair : Bool} (bug : ∀ bug ∈ (runFor p n m).scheduler.bug, bug.kind = .stepBound) :
      Finishes p m n k [.bound true, .fairness fair]
  /-- The strategy names no operation. -/
  | declined {choices : List Snapshot} {a : OperationId} {fair : Bool}
      (bug : ∀ bug ∈ (runFor p n m).scheduler.bug,
        bug.kind ≠ .assertion ∧ ∀ op ∈ choices, op.enabled = false) :
      Finishes p m n k [.bound false, .operation choices a (.ok none), .fairness fair]
  /-- The strategy has no value for a choice. -/
  | undecided {e : Exchange} (bug : (runFor p n m).scheduler.bug = none)
      (value : (∃ max, e = .boolean max (.ok none)) ∨ ∃ max, e = .integer max (.ok none)) :
      Finishes p m n k [.bound false, e]
  /-- A monitor has been hot for too long. -/
  | overheated {thread : Thread β} {m' : Machine σ β} {choices : List Snapshot} {d : OperationId}
      {fair : Bool} (ready : FirstReady p (runFor p k m) thread)
      (overheats : Overheats p (runFor p k m) thread choices d fair m')
      (rest : runFor p n m = runFor p (n - (k + 1)) m')
      (silent : runSaid p (n - (k + 1)) m' = []) (before : k < n)
      (bug : ∀ bug ∈ (runFor p n m).scheduler.bug, bug.kind ≠ .assertion) :
      Finishes p m n k
        [.bound false, .operation choices thread.token.operation (.ok (some d)),
          .logged (.schedule d), .fairness fair]

/-- Where a monitor is too hot, a run that says the same up to there comes to the same end, whatever
legal operation is named. -/
theorem Overheats.exists_rehost {p : Program β} {c : Configuration} {i k n : Nat} {a : σ}
    {thread : Thread β} {m' : Machine σ β} {choices : List Snapshot} {d d' : OperationId}
    {fair : Bool} (h : Overheats p (runFor p k (.start p (.new i c a))) thread choices d fair m')
    (hready : FirstReady p (runFor p k (.start p (.new i c a))) thread) (hbefore : k < n)
    (hrest : runFor p n (.start p (.new i c a)) = runFor p (n - (k + 1)) m')
    (hsilent : runSaid p (n - (k + 1)) m' = []) {q r r' : τ}
    (hfollows : Follows q (runSaid p k (.start p (.new i c a))) r)
    (hlegal : ∃ op ∈ choices, op.id = d' ∧ op.enabled = true)
    (hlast : Follows r [.bound false, .operation choices thread.token.operation (.ok (some d')),
      .logged (.schedule d'), .fairness fair] r') (j : Nat) :
    ∃ schedule : Schedule, runFor p n (.start p (.new j c q)) =
      (runFor p n (.start p (.new i c a))).rehost (Equiv.swap i j) r' schedule := by
  -- the step is made with the other operation and ends in the same way
  let schedule := Schedule.extend #[] (runSaid p k (.start p (.new i c a)))
  have hstep := h.step?_rehost hready (Equiv.swap i j) schedule hlegal hlast
  rw [← runFor_start_rehost p k c i j hfollows] at hstep
  -- and nothing is said behind it
  have hfollow : Follows r' (runSaid p (n - (k + 1)) m') r' := by
    rw [hsilent]
    rfl
  have hend := runFor_rehost p (n - (k + 1)) m' (Equiv.swap i j) (schedule.push (.schedule d'))
    hfollow
  rw [← hrest, hsilent, Schedule.extend_nil] at hend
  exact ⟨schedule.push (.schedule d'), (runFor_of_step hstep hbefore).trans hend⟩

/-- The operations of a run that ends without an error take turns up to its last words. -/
theorem exists_finishes {p : Program β} {m : Machine σ β} {turn : Turn} (h : m.At turn) {n : Nat}
    (hwrap : m.nextOperation.toNat + n < UInt64.size) (hended : step? p (runFor p n m) = none)
    (herror : (runFor p n m).scheduler.error = none) :
    ∃ k a l, k ≤ n ∧ (runFor p k m).scheduler.running = true ∧
      Turn.Path turn (runSaid p k m) (.holds a) ∧ runSaid p n m = runSaid p k m ++ l ∧
        Finishes p m n k l := by
  rcases run_turns h hwrap with ⟨turn', hpath, hat⟩ | ⟨k, thread, m', hk, hstops⟩
  · -- only an operation that holds control can be without a step
    cases turn' with
    | holds a =>
        exact ⟨n, a, [], Nat.le_refl n, hat.1.running, hpath, (List.append_nil _).symm, .silent⟩
    | granted a next => exact absurd hended hat.ready
    | decided a choice => exact hat.elim
  · -- the `k` steps, the one that stops the run, and the rest, in which nothing is said
    obtain ⟨a, hpath, hat⟩ := hstops.path
    have hrest := runFor_of_step hstops.step hk
    obtain ⟨-, hbug, hsaid⟩ := hstops.rest hk
    have hpassage := passage_runFor p (n - (k + 1)) m'
    rw [← hrest] at hpassage
    have herror' : m'.scheduler.error = none := (hpassage.error herror).1
    have hsilent : runSaid p (n - (k + 1)) m' = [] := (hpassage.silent hstops.stops.isOver).1
    refine ⟨k, a, stepSaid p (runFor p k m), Nat.le_of_lt hk, hat.1.running, hpath, hsaid, ?_⟩
    have hstop := hstops.stops
    generalize stepSaid p (runFor p k m) = l at hstop ⊢
    cases hstop with
    | asserted stopped => exact .silent
    | failed halted bug error => exact absurd herror' error
    | cut halted bug => exact .cut (by rw [hbug]; exact bug)
    | declined halted bug =>
        refine .declined fun found hfound => ?_
        obtain ⟨hkind, hdisabled⟩ := bug found (hbug ▸ hfound)
        refine ⟨?_, hdisabled⟩
        rcases hkind with hkind | ⟨monitor, hkind⟩
        · rw [hkind]
          exact BugKind.noConfusion
        · rw [hkind]
          exact BugKind.noConfusion
    | undecided halted bug value => exact .undecided (hbug.trans bug) value
    | overheated overheats halted bug =>
        obtain ⟨monitor, hmonitor⟩ := bug
        refine .overheated hstops.ready overheats hrest hsilent hk fun found hfound => ?_
        rw [hbug, hmonitor] at hfound
        cases hfound
        exact BugKind.noConfusion

/-- The last words of a run contain one request at most. -/
theorem Finishes.requests_le {p : Program β} {m : Machine σ β} {n k : Nat} {l : List Exchange}
    (h : Finishes p m n k l) : requests l ≤ 1 := by
  cases h with
  | undecided bug value => rcases value with ⟨max, rfl⟩ | ⟨max, rfl⟩ <;> exact Nat.le_refl 1
  | silent => exact Nat.zero_le 1
  | cut => exact Nat.zero_le 1
  | declined => exact Nat.le_refl 1
  | overheated => exact Nat.le_refl 1

/-- Nothing more is said once an assertion has failed. -/
theorem Finishes.eq_nil_of_assertion {p : Program β} {m : Machine σ β} {n k : Nat}
    {l : List Exchange} (h : Finishes p m n k l)
    (hbug : (runFor p n m).scheduler.bug.map (·.kind) = some .assertion) : l = [] := by
  obtain ⟨found, hfound, hkind⟩ := Option.map_eq_some_iff.mp hbug
  cases h with
  | silent => rfl
  | cut bug =>
      have := bug found hfound
      rw [hkind] at this
      cases this
  | declined bug => exact absurd hkind (bug found hfound).1
  | undecided bug =>
      rw [hfound] at bug
      cases bug
  | overheated ready overheats rest silent before bug => exact absurd hkind (bug found hfound)

/-- The last words of a run make no step. -/
theorem Finishes.hearAll {p : Program β} {m : Machine σ β} {n k : Nat} {l : List Exchange}
    (h : Finishes p m n k l) (r : Recorder) : r.hearAll l = r := by
  cases h with
  | undecided bug value => rcases value with ⟨max, rfl⟩ | ⟨max, rfl⟩ <;> rfl
  | _ => rfl

end Machine

end Interleave
