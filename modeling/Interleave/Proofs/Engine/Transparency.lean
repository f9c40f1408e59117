import Interleave.Proofs.Engine.Reports
import Interleave.Proofs.Engine.Rounds
import Interleave.Proofs.Strategy.Forwarding

/-!
# Transparent recording

A session under a strategy that forwards everything is the session under the strategy that it
forwards to. One round of the one is a round of the other (`Engine.Agrees.round`), the sessions
agree after it again (`Engine.Agrees.close`), and so they do to their ends
(`Engine.Agrees.iterate`). A recording strategy forwards everything, so that to record the runs of a
program changes nothing but the description in the report (`recording_is_transparent`).
-/

namespace Interleave

variable {τ σ ρ β : Type} {view : τ → σ}

theorem Scheduler.settled_viewed (s : Scheduler τ) :
    (s.viewed view).settled = s.settled.viewed view := by
  unfold Scheduler.settled
  show (if s.slots.isEmpty then (s.viewed view).stop else s.viewed view) = _
  split <;> rfl

/-- A round as it would be under the other strategy. -/
def Round.viewed (view : τ → σ) (round : Round τ ρ) : Round σ ρ where
  strategy := view round.strategy
  given := round.given
  final := round.final.viewed view
  left := round.left

/-- An engine with the other strategy alone. -/
def Engine.viewed (view : τ → σ) (e : Engine τ) : Engine σ :=
  ⟨e.config, view e.strategy, e.report, e.iterations, e.lastOutcome⟩

/-- Two harnesses do the same with schedulers that differ in their strategies. -/
def Harness.Agrees (view : τ → σ) (harness : Harness τ ρ) (harness' : Harness σ ρ) : Prop :=
  ∀ (r : ρ) (s : Scheduler τ),
    harness' r (s.viewed view) = ((harness r s).1, (harness r s).2.viewed view)

namespace Engine

/-- Two engines differ in their strategies only, and in the names of their reports. -/
structure Agrees (view : τ → σ) (e : Engine τ) (e' : Engine σ) : Prop where
  config : e'.config = e.config
  strategy : e'.strategy = view e.strategy
  report : e'.report.named "" = e.report.named ""
  iterations : e'.iterations = e.iterations
  lastOutcome : e'.lastOutcome = e.lastOutcome

variable {harness : Harness τ ρ} {harness' : Harness σ ρ} {e : Engine τ} {e' : Engine σ}

theorem Agrees.round (h : Agrees view e e') (hharness : harness.Agrees view harness') (r : ρ) :
    e'.round harness' r = (e.round harness r).viewed view := by
  have hnew : Scheduler.new e.iterations e.config (view e.strategy) =
      (Scheduler.new e.iterations e.config e.strategy).viewed view := rfl
  unfold Engine.round
  rw [h.iterations, h.config, h.strategy, hnew, hharness]
  dsimp only [Round.viewed]
  rw [Scheduler.settled_viewed]

variable [Strategy τ] [Strategy σ] (hview : Strategy.Forwards view)

include hview

/-- The report on a run under the other strategy differs only in its name. -/
theorem report_viewed (s : Scheduler τ) : (s.viewed view).report.named "" = s.report.named "" := by
  unfold Scheduler.report
  rw [← TestReport.record_named, ← TestReport.record_named, hview.outcome]
  show TestReport.record _ _ (Strategy.isFair (view s.strategy))
    (Strategy.boundReached (view s.strategy)) _ = _
  rw [hview.isFair, hview.boundReached]
  rfl

theorem Agrees.ran (h : Agrees view e e') (round : Round τ ρ) :
    Agrees view (e.ran round) (e'.ran (round.viewed view)) where
  config := h.config
  strategy := rfl
  report := TestReport.merge_named h.report (report_viewed hview round.final)
  iterations := congrArg (· + 1) h.iterations
  lastOutcome := h.lastOutcome

/-- Engines that agree close a round in the same way, and agree then. -/
theorem Agrees.close (h : Agrees view e e') (outcome : Outcome) :
    (e'.close outcome).1 = (e.close outcome).1 ∧
      Agrees view (e.close outcome).2 (e'.close outcome).2 := by
  unfold Engine.close
  cases outcome.error with
  | some source => exact ⟨rfl, { h with lastOutcome := rfl }⟩
  | none =>
      rw [h.strategy, hview.onEnd]
      -- both strategies have been told, with the same result
      obtain ⟨ended, q⟩ := Strategy.onEnd e.strategy outcome
      cases ended with
      | error source => exact ⟨rfl, { h with strategy := rfl }⟩
      | ok =>
          dsimp only [Prod.map_apply, id_eq]
          rw [h.config]
          split
          · exact ⟨rfl, { h with config := rfl, strategy := rfl, lastOutcome := rfl }⟩
          · rw [hview.prepare]
            -- both strategies have been asked for another run, with the same result
            obtain ⟨more, q'⟩ := Strategy.prepare q
            rcases more with source | _ | _ <;>
              exact ⟨rfl, { h with config := rfl, strategy := rfl, lastOutcome := rfl }⟩

/-- Sessions that agree play the same rounds, end in the same way and agree then. -/
theorem Agrees.iterate (h : Agrees view e e') (hharness : harness.Agrees view harness')
    (budget i : Nat) (r : ρ) :
    e'.rounds harness' budget r = (e.rounds harness budget r).map (Round.viewed view) ∧
      (Engine.iterate harness' budget i e' r).1 = (Engine.iterate harness budget i e r).1 ∧
      (Engine.iterate harness' budget i e' r).2.2 = (Engine.iterate harness budget i e r).2.2 ∧
      Agrees view (Engine.iterate harness budget i e r).2.1
        (Engine.iterate harness' budget i e' r).2.1 := by
  induction budget generalizing i e e' r with
  | zero => exact ⟨rfl, rfl, rfl, h⟩
  | succ budget ih =>
      -- one round, and what both engines make of it
      have hround := h.round hharness r
      simp only [Engine.rounds, Engine.iterate, runOnce_eq, hround]
      have houtcome : ((e.round harness r).viewed view).outcome = (e.round harness r).outcome :=
        hview.outcome _
      rw [houtcome]
      generalize e.round harness r = round
      obtain ⟨hverdict, hagrees⟩ := (h.ran hview round).close hview round.outcome
      rcases hclose : (e.ran round).close round.outcome with ⟨verdict, next⟩
      rcases hclose' : (e'.ran (round.viewed view)).close round.outcome with ⟨verdict', next'⟩
      rw [hclose, hclose'] at hverdict hagrees
      obtain rfl := hverdict
      cases verdict' with
      | failed source => exact ⟨rfl, rfl, rfl, hagrees⟩
      | done => exact ⟨rfl, rfl, rfl, hagrees⟩
      | next =>
          obtain ⟨hrounds, hrest⟩ := ih hagrees (i + 1) round.left
          exact ⟨congrArg (round.viewed view :: ·) hrounds, hrest⟩

end Engine

/-- To record the runs of a program changes nothing. A recording strategy passes on everything,
with unchanged arguments and answers. So a session with it, from a new engine or from one that has
run before, and one with the inner strategy alone, from equal states, return the same, execute the
same number of iterations with the same outcomes, iteration by iteration, and with the same logs,
leave the inner strategy in the same state, and give reports that are equal but for the description
of the strategy. -/
theorem recording_is_transparent [Strategy σ] (p : Program β) (e : Engine (Recorded σ))
    (records : Array RunRecord) :
    let inner : Recorded σ → σ := Recorded.inner
    let recorded := e.run p.harness records
    let plain := (e.viewed inner).run p.harness records
    Strategy.Forwards inner ∧ recorded.1 = plain.1 ∧ recorded.2.2 = plain.2.2 ∧
    (e.rounds p.harness e.config.iterations records).map Round.outcome =
      ((e.viewed inner).rounds p.harness e.config.iterations records).map Round.outcome ∧
    recorded.2.1.iterations = plain.2.1.iterations ∧
    recorded.2.1.lastOutcome = plain.2.1.lastOutcome ∧
    recorded.2.1.strategy.inner = plain.2.1.strategy ∧
    recorded.2.1.report = plain.2.1.report.named recorded.2.1.report.strategy := by
  intro inner recorded plain
  have hview : Strategy.Forwards inner := forwards_recorded
  have hagrees : Engine.Agrees inner e (e.viewed inner) := ⟨rfl, rfl, rfl, rfl, rfl⟩
  obtain ⟨hrounds, hresult, hrecords, hlast⟩ :=
    hagrees.iterate hview (fun r s => hview.harness p r s) e.config.iterations 0 records
  refine ⟨hview, hresult.symm, hrecords.symm, ?_, hlast.iterations.symm, hlast.lastOutcome.symm,
    hlast.strategy.symm, ?_⟩
  · rw [hrounds, List.map_map]
    exact List.map_congr_left fun round _ => (hview.outcome round.final).symm
  · exact (congrArg (TestReport.named · recorded.2.1.report.strategy) hlast.report).symm

end Interleave
