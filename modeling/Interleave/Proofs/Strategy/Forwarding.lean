import Interleave.Program.Harness
import Interleave.Proofs.Program.Passage
import Interleave.Strategy.Recorded

/-!
# Forwarding

A strategy that does something of its own besides may leave all decisions to another one, whose
state is a part of its own. `Strategy.Forwards view` says that it passes on everything, with
unchanged arguments and answers, where `view` is that part; only the description may differ. Such a
strategy follows the dialogues that the other one follows (`Strategy.Forwards.follows`), so a
program runs in the same way under both (`Strategy.Forwards.harness`). A recording strategy is an
example (`forwards_recorded`).
-/

namespace Interleave

variable {τ σ β : Type}

/-- Everything is passed on to the strategy whose state is the given part: every request, with its
arguments and its answer, every notice and every question. -/
structure Strategy.Forwards [Strategy τ] [Strategy σ] (view : τ → σ) : Prop where
  nextOperation : ∀ (q : τ) (choices : List Snapshot) (current : OperationId),
    Strategy.nextOperation (view q) choices current =
      (Strategy.nextOperation q choices current).map id view
  nextBoolean : ∀ (q : τ) (max : UInt32),
    Strategy.nextBoolean (view q) max = (Strategy.nextBoolean q max).map id view
  nextInteger : ∀ (q : τ) (max : UInt32),
    Strategy.nextInteger (view q) max = (Strategy.nextInteger q max).map id view
  forceOperation : ∀ (q : τ) (next : OperationId) (choices : List Snapshot) (current : OperationId),
    Strategy.forceOperation (view q) next choices current =
      (Strategy.forceOperation q next choices current).map id view
  forceBoolean : ∀ (q : τ) (max : UInt32) (b : Bool),
    Strategy.forceBoolean (view q) max b = (Strategy.forceBoolean q max b).map id view
  forceInteger : ∀ (q : τ) (max n : UInt32),
    Strategy.forceInteger (view q) max n = (Strategy.forceInteger q max n).map id view
  prepare : ∀ q : τ, Strategy.prepare (view q) = (Strategy.prepare q).map id view
  reset : ∀ q : τ, Strategy.reset (view q) = view (Strategy.reset q)
  steps : ∀ q : τ, Strategy.steps (view q) = Strategy.steps q
  boundReached : ∀ q : τ, Strategy.boundReached (view q) = Strategy.boundReached q
  isFair : ∀ q : τ, Strategy.isFair (view q) = Strategy.isFair q
  observe : ∀ (q : τ) (n : Notice), Strategy.observe (view q) n = view (Strategy.observe q n)
  onSend : ∀ (q : τ) (sender target : OperationId) (event : Event),
    Strategy.onSend (view q) sender target event =
      (Strategy.onSend q sender target event).map id view
  onEnd : ∀ (q : τ) (outcome : Outcome),
    Strategy.onEnd (view q) outcome = (Strategy.onEnd q outcome).map id view

/-- A recording strategy passes everything on. -/
theorem forwards_recorded [Strategy σ] :
    Strategy.Forwards (Recorded.inner : Recorded σ → σ) where
  nextOperation _ _ _ := rfl
  nextBoolean _ _ := rfl
  nextInteger _ _ := rfl
  forceOperation _ _ _ _ := rfl
  forceBoolean _ _ _ := rfl
  forceInteger _ _ _ := rfl
  prepare _ := rfl
  reset _ := rfl
  steps _ := rfl
  boundReached _ := rfl
  isFair _ := rfl
  observe _ _ := rfl
  onSend _ _ _ _ := rfl
  onEnd _ _ := rfl

/-- The scheduler as it would be under the other strategy. -/
def Scheduler.viewed (view : τ → σ) (s : Scheduler τ) : Scheduler σ :=
  s.rehost (Equiv.refl Nat) (view s.strategy) s.schedule

namespace Strategy.Forwards

variable [Strategy τ] [Strategy σ] {view : τ → σ} (h : Strategy.Forwards view)

include h

/-- The other strategy takes part in an exchange in the same way. -/
theorem moves {e : Exchange} {q q' : τ} (he : e.Moves q q') : e.Moves (view q) (view q') := by
  cases e with
  | bound reached => exact ⟨(h.boundReached q).trans he.1, congrArg view he.2⟩
  | fairness fair => exact ⟨(h.isFair q).trans he.1, congrArg view he.2⟩
  | operation choices current answer =>
      exact (h.nextOperation q choices current).trans (congrArg (Prod.map id view) he)
  | boolean max answer => exact (h.nextBoolean q max).trans (congrArg (Prod.map id view) he)
  | integer max answer => exact (h.nextInteger q max).trans (congrArg (Prod.map id view) he)
  | notice n => exact (h.observe q n).trans (congrArg view he)
  | send sender target event delivery =>
      exact (h.onSend q sender target event).trans (congrArg (Prod.map id view) he)
  | logged d => exact congrArg view he

/-- The other strategy follows the same dialogues. -/
theorem follows {l : List Exchange} {q q' : τ} (hl : Follows q l q') :
    Follows (view q) l (view q') := by
  induction l generalizing q with
  | nil => exact congrArg view hl
  | cons e l ih =>
      obtain ⟨middle, he, hrest⟩ := hl
      exact ⟨view middle, h.moves he, ih hrest⟩

/-- A run ends in the same way under the other strategy. -/
theorem outcome (s : Scheduler τ) : (s.viewed view).outcome = s.outcome := by
  unfold Scheduler.outcome Scheduler.viewed
  simp only [Scheduler.rehost, h.steps]

/-- A machine runs in the same way under the other strategy. -/
theorem runFor (p : Program β) (n : Nat) (m : Machine τ β) :
    let m' := Machine.runFor p n m
    Machine.runFor p n (m.rehost (Equiv.refl Nat) (view m.scheduler.strategy) m.scheduler.schedule)
      = m'.rehost (Equiv.refl Nat) (view m'.scheduler.strategy) m'.scheduler.schedule := by
  have hrun := h.follows (Machine.follows_run p n m)
  rw [Machine.runFor_rehost p n m _ _ hrun, ← Machine.schedule_runFor]

/-- A program runs in the same way under the other strategy, and leaves the same record. -/
theorem harness (p : Program β) (records : Array RunRecord) (s : Scheduler τ) :
    p.harness records (s.viewed view) =
      ((p.harness records s).1, (p.harness records s).2.viewed view) := by
  have hstrategy : (Machine.start p s).scheduler.strategy = s.strategy :=
    Scheduler.strategy_create s .harness "harness"
  have hschedule : (Machine.start p s).scheduler.schedule = s.schedule :=
    Scheduler.schedule_create s .harness "harness"
  have hrun := h.runFor p Machine.stepLimit (.start p s)
  rw [Machine.start_rehost, hstrategy, hschedule] at hrun
  let m := p.run s
  have hview : p.run (s.viewed view) =
      m.rehost (Equiv.refl Nat) (view m.scheduler.strategy) m.scheduler.schedule := hrun
  have houtcome : (p.run (s.viewed view)).scheduler.outcome = m.scheduler.outcome := by
    rw [hview]
    exact h.outcome m.scheduler
  show (records.push ⟨(p.run (s.viewed view)).scheduler.outcome, (p.run (s.viewed view)).log⟩,
    (p.run (s.viewed view)).scheduler) = _
  rw [houtcome, hview]
  rfl

end Strategy.Forwards

end Interleave
