import Interleave.Proofs.Program.Dialogue
import Interleave.Proofs.Scheduler.Calling

/-!
# Runs of a program as calls of its scheduler

All that a machine does to its scheduler is to call it: every step is a sequence of calls with the
dialogue of the step, and so is a run of any number of steps (`Machine.makes_runFor`). What calls
keep therefore holds of runs; in particular a run is a passage (`Machine.passage_runFor`).
-/

namespace Interleave

namespace Machine

variable {σ β : Type} [Strategy σ]

open Scheduler (Makes)

theorem makes_approach {m m' : Machine σ β} {t : Token} {body : β} {action : Action β}
    {pending : Pending β} (h : m.approach t body action = some (m', pending)) :
    m.scheduler.Makes [] m'.scheduler := by
  cases action with
  | finish =>
      cases h
      exact Makes.call m.scheduler (.complete t)
  | create name child next =>
      cases h
      exact Makes.refl _
  | send target name value next =>
      cases h
      exact Makes.refl _
  | receive next =>
      cases h
      split
      · exact Makes.call m.scheduler (.blockOnReceive t)
      · exact Makes.refl _
  | _ => cases h

variable (m : Machine σ β)

theorem makes_perform (t : Token) (pending : Pending β) :
    m.scheduler.Makes (m.performSaid t pending) (m.perform t pending).scheduler := by
  cases pending with
  | start body =>
      by_cases h : t.operation = .harness
      · simp only [performSaid, perform, if_pos h]
        exact Makes.refl m.scheduler
      · simp only [performSaid, perform, if_neg h]
        exact Makes.call m.scheduler (.notify (.started t.operation none))
  | create id name child next =>
      have h := (Makes.call m.scheduler (.create id name)).trans
        (Makes.call (m.scheduler.create id name).2 (.notify (.created t.operation id)))
      simp only [Scheduler.said, Scheduler.noticeSaid, Scheduler.running_create, List.nil_append]
        at h
      exact h
  | send target name value next =>
      have h := Makes.call m.scheduler (.send t.operation target
        (Message.mk ⟨m.nextMessage⟩ t.operation name value).event)
      unfold perform performSend
      dsimp only
      split
      · have hwoken := h.trans (Makes.call _ (.unblock target))
        rwa [Scheduler.said, Scheduler.said, List.append_nil] at hwoken
      · exact h
  | receive again next =>
      simp only [performSaid, perform, performReceive]
      cases m.inbox t.operation with
      | nil => exact Makes.refl m.scheduler
      | cons message rest =>
          exact Makes.call m.scheduler (.notify (.received t.operation message.event))
  | stop => exact Makes.refl m.scheduler

theorem makes_suspend (t : Token) (pending : Pending β) (r : Reply × Scheduler σ) :
    r.2.Makes (m.suspendSaid t pending r) (m.suspend t pending r).scheduler := by
  obtain ⟨reply, s⟩ := r
  cases reply with
  | proceed => exact makes_perform { m with scheduler := s } t pending
  | canceled => exact Makes.refl s
  | parked => exact Makes.refl s

theorem makes_arrive (t : Token) (pending : Pending β) :
    m.scheduler.Makes (m.arriveSaid t pending) (m.arrive t pending).scheduler := by
  have hyield := Makes.call m.scheduler (.yield t (pending.declared t.operation).kind
    (pending.declared t.operation).targetKind (pending.declared t.operation).target)
  rw [Scheduler.said, Pending.declared_eta] at hyield
  exact hyield.trans (makes_suspend m t pending _)

theorem makes_execute (t : Token) (body : β) (action : Action β) :
    m.scheduler.Makes (m.executeSaid t body action) (m.execute t body action).scheduler := by
  have hact := ActionStep.of_execute m t body action
  generalize m.executeSaid t body action = l, m.execute t body action = m' at hact ⊢
  cases hact with
  | @arrives _ m₁ pending happ => exact (makes_approach happ).trans (makes_arrive m₁ t pending)
  | flips fairness next =>
      rw [scheduler_continueWith]
      exact Makes.call m.scheduler (.nextBoolean t 2 fairness)
  | rolls max next =>
      rw [scheduler_continueWith]
      exact Makes.call m.scheduler (.nextInteger t max)
  | tells name hot next =>
      exact Makes.call m.scheduler (.notify (.monitored name t.operation hot))
  | fails message => exact Makes.call m.scheduler (.failAssertion message)
  | reports message next => exact Makes.call m.scheduler (.reportAssertion message)
  | logs _ _ | hides _ => exact Makes.refl m.scheduler

variable {m}

/-- A step of a thread is a sequence of calls. -/
theorem makes_stepThread {p : Program β} {m' : Machine σ β} {thread : Thread β}
    (h : stepThread p m thread = some m') :
    m.scheduler.Makes (threadSaid p m thread) m'.scheduler := by
  have hstep := ThreadStep.of_stepThread h
  generalize threadSaid p m thread = l at hstep ⊢
  cases hstep with
  | starts t body =>
      exact (Makes.call m.scheduler (.start t)).trans
        (makes_suspend m t (.start body) (m.scheduler.start t))
  | acts t body => exact makes_execute m t body (p.act t.operation body)
  | performs _ => exact makes_perform m _ _
  | cancels _ | resumes _ => exact Makes.refl m.scheduler

/-- A run is a sequence of calls. -/
theorem makes_runFor (p : Program β) (n : Nat) (m : Machine σ β) :
    m.scheduler.Makes (runSaid p n m) (runFor p n m).scheduler := by
  refine runFor_induction (P := fun l m' => m.scheduler.Makes l m'.scheduler)
    (fun l m₁ m₂ h hstep => ?_) n (Makes.refl m.scheduler)
  obtain ⟨before, thread, after, -, hthread, -, hsaid⟩ := exists_thread_of_step? hstep
  rw [hsaid]
  exact h.trans (makes_stepThread hthread)

/-- A run is a passage. -/
theorem passage_runFor (p : Program β) (n : Nat) (m : Machine σ β) :
    m.scheduler.Passage (runSaid p n m) (runFor p n m).scheduler :=
  (makes_runFor p n m).passage

end Machine

end Interleave
