import Interleave.Program.Harness
import Interleave.Proofs.Program.Passage
import Interleave.Proofs.Scheduler.Verdict

/-!
# The rounds of a session

A `Round` is one iteration of a session: the strategy and the harness as it finds them, and the
scheduler and the harness as it leaves them. What comes after a round depends on how the run ended,
on what the strategy answers when it is told of that, and on what it plans (`Round.Closes`); one
iteration of an engine is a round that is closed in this way (`Engine.played_round`). The rounds of
a session (`Engine.rounds`) are played one after the other, each with the strategy that the one
before has left (`Engine.plays_iterate`), and what holds of sessions is proved by the four ways in
which they can go on (`Engine.Plays`).
-/

namespace Interleave

variable {σ ρ : Type}

/-- One iteration of a session: strategy and harness at its start, scheduler and harness at its
end. -/
structure Round (σ ρ : Type) where
  strategy : σ
  given : ρ
  final : Scheduler σ
  left : ρ

/-- The run on which no operation was registered is stopped, since nothing else would do so. -/
def Scheduler.settled (s : Scheduler σ) : Scheduler σ :=
  if s.slots.isEmpty then s.stop else s

@[simp]
theorem Scheduler.strategy_settled (s : Scheduler σ) : s.settled.strategy = s.strategy := by
  unfold settled
  split <;> rfl

@[simp]
theorem Scheduler.config_settled (s : Scheduler σ) : s.settled.config = s.config := by
  unfold settled
  split <;> rfl

variable [Strategy σ]

/-- All that a harness can do with its scheduler is to call it. -/
def Harness.OnlyCalls (harness : Harness σ ρ) : Prop :=
  ∀ (r : ρ) (s : Scheduler σ), ∃ calls, (harness r s).2 = s.afterAll calls

/-- All that a program does is to call its scheduler. -/
theorem Program.onlyCalls_harness {β : Type} (p : Program β) :
    (p.harness : Harness σ (Array RunRecord)).OnlyCalls := by
  intro records s
  obtain ⟨calls, hcalls, -⟩ := Machine.makes_runFor p Machine.stepLimit (.start p s)
  exact ⟨.create .harness "harness" :: calls, hcalls⟩

namespace Round

/-- How the run of the round ended. -/
def outcome (round : Round σ ρ) : Outcome :=
  round.final.outcome

/-- What the strategy answers when it is told how the run ended. -/
def told (round : Round σ ρ) : Except StrategyError Unit × σ :=
  Strategy.onEnd round.final.strategy round.outcome

/-- What the strategy answers when it is asked for another run then. -/
def planned (round : Round σ ρ) : Except StrategyError Bool × σ :=
  Strategy.prepare round.told.2

/-- The reasons for another round: no error, a strategy that has taken notice of the run and wants
another one, and no bug at which the session is to end. -/
structure GoesOn (c : Configuration) (round : Round σ ρ) : Prop where
  error : round.outcome.error = none
  told : round.told.1 = .ok ()
  bug : round.outcome.bug = none ∨ c.stopAfterFirstBug = false
  planned : round.planned.1 = .ok true

/-- The strategy has not failed during the run, and fails when it is told how the run ended. -/
structure Refuses (round : Round σ ρ) (source : StrategyError) : Prop where
  error : round.outcome.error = none
  told : round.told.1 = .error source

/-- What follows a round, and the state in which it leaves the strategy. -/
inductive Closes (c : Configuration) (round : Round σ ρ) : Engine.Verdict → σ → Prop
  /-- The strategy has failed during the run. -/
  | failed {source : StrategyError} (error : round.outcome.error = some source) :
      Closes c round (.failed source) round.final.strategy
  /-- The strategy fails when it is told how the run ended. -/
  | refused {source : StrategyError} (error : round.outcome.error = none)
      (told : round.told.1 = .error source) : Closes c round (.failed source) round.told.2
  /-- A bug was found at which the session is to end. -/
  | found (error : round.outcome.error = none) (told : round.told.1 = .ok ())
      (bug : round.outcome.bug ≠ none) (stop : c.stopAfterFirstBug = true) :
      Closes c round .done round.told.2
  /-- The strategy fails when it is asked for another run. -/
  | unplanned {source : StrategyError} (error : round.outcome.error = none)
      (told : round.told.1 = .ok ())
      (bug : round.outcome.bug = none ∨ c.stopAfterFirstBug = false)
      (planned : round.planned.1 = .error source) :
      Closes c round (.failed source) round.planned.2
  /-- The strategy has no other run. -/
  | exhausted (error : round.outcome.error = none) (told : round.told.1 = .ok ())
      (bug : round.outcome.bug = none ∨ c.stopAfterFirstBug = false)
      (planned : round.planned.1 = .ok false) : Closes c round .done round.planned.2
  /-- There is another round. -/
  | next (goesOn : round.GoesOn c) : Closes c round .next round.planned.2

/-- The error with which the session ends after the round. -/
def Fails (c : Configuration) (round : Round σ ρ) (source : StrategyError) : Prop :=
  ∃ q, round.Closes c (.failed source) q

end Round

namespace Engine

/-- What follows a round is what an engine does that closes it. -/
theorem close_of_closes {e : Engine σ} {round : Round σ ρ}
    (hlast : e.strategy = round.final.strategy) {verdict : Verdict} {q : σ}
    (h : round.Closes e.config verdict q) :
    (e.close round.outcome).1 = verdict ∧ (e.close round.outcome).2.strategy = q := by
  have htold : Strategy.onEnd e.strategy round.outcome = round.told := by
    rw [hlast]
    rfl
  have hplanned : Strategy.prepare round.told.2 = round.planned := rfl
  -- the session does not end here because of a bug
  have hbug (hspared : round.outcome.bug = none ∨ e.config.stopAfterFirstBug = false) :
      (round.outcome.bug.isSome && e.config.stopAfterFirstBug) = false := by
    rcases hspared with hnone | hoff
    · simp [hnone]
    · simp [hoff]
  cases h with
  | failed error => simp [close, error, hlast]
  | refused error told => simp [close, error, htold, told]
  | found error told bug stop =>
      have hfound := Option.isSome_iff_ne_none.mpr bug
      simp [close, error, htold, told, hfound, stop]
  | unplanned error told bug planned =>
      simp [close, error, htold, told, hbug bug, hplanned, planned]
  | exhausted error told bug planned =>
      simp [close, error, htold, told, hbug bug, hplanned, planned]
  | next goesOn =>
      simp [close, goesOn.error, htold, goesOn.told, hbug goesOn.bug, hplanned, goesOn.planned]

/-- An engine closes a round in one of the ways in which it can be closed. -/
theorem closes_close (e : Engine σ) {round : Round σ ρ}
    (hlast : e.strategy = round.final.strategy) :
    round.Closes e.config (e.close round.outcome).1 (e.close round.outcome).2.strategy := by
  obtain ⟨verdict, q, h⟩ : ∃ verdict q, round.Closes e.config verdict q := by
    cases herror : round.outcome.error with
    | some source => exact ⟨_, _, .failed herror⟩
    | none =>
        cases htold : round.told.1 with
        | error source => exact ⟨_, _, .refused herror htold⟩
        | ok =>
            by_cases hbug : round.outcome.bug = none ∨ e.config.stopAfterFirstBug = false
            · cases hplanned : round.planned.1 with
              | error source => exact ⟨_, _, .unplanned herror htold hbug hplanned⟩
              | ok more =>
                  cases more with
                  | false => exact ⟨_, _, .exhausted herror htold hbug hplanned⟩
                  | true => exact ⟨_, _, .next ⟨herror, htold, hbug, hplanned⟩⟩
            · obtain ⟨hfound, hstop⟩ := not_or.mp hbug
              exact ⟨_, _, .found herror htold hfound (by simpa using hstop)⟩
  obtain ⟨hverdict, hq⟩ := close_of_closes hlast h
  rw [hverdict, hq]
  exact h

end Engine

namespace Round

variable {c : Configuration} {round : Round σ ρ} {verdict verdict' : Engine.Verdict} {q q' : σ}

/-- Only one thing can follow a round. -/
theorem Closes.unique (h : round.Closes c verdict q) (h' : round.Closes c verdict' q') :
    verdict = verdict' := by
  let e : Engine σ := .new c round.final.strategy
  exact (Engine.close_of_closes (e := e) rfl h).1.symm.trans
    (Engine.close_of_closes (e := e) rfl h').1

theorem Closes.goesOn (h : round.Closes c .next q) : round.GoesOn c ∧ q = round.planned.2 := by
  cases h with
  | next goesOn => exact ⟨goesOn, rfl⟩

theorem Closes.fails_iff (h : round.Closes c verdict q) (source : StrategyError) :
    round.Fails c source ↔ verdict = .failed source := by
  constructor
  · rintro ⟨q', hfails⟩
    exact h.unique hfails
  · rintro rfl
    exact ⟨q, h⟩

theorem Closes.not_goesOn (h : round.Closes c verdict q) (hend : verdict ≠ .next) :
    ¬round.GoesOn c :=
  fun goesOn => hend (h.unique (.next goesOn))

end Round

namespace Engine

variable (harness : Harness σ ρ)

/-- To close a round changes neither the configuration nor what has been counted. -/
theorem frame_close (e : Engine σ) (outcome : Outcome) :
    (e.close outcome).2.config = e.config ∧ (e.close outcome).2.iterations = e.iterations ∧
      (e.close outcome).2.report = e.report := by
  unfold close
  dsimp only
  split
  · exact ⟨rfl, rfl, rfl⟩
  · split
    · exact ⟨rfl, rfl, rfl⟩
    · split
      · exact ⟨rfl, rfl, rfl⟩
      · split <;> exact ⟨rfl, rfl, rfl⟩

/-- An engine that closes a round takes its outcome for the last one, unless the strategy refuses
the end of the run. -/
theorem lastOutcome_close {e : Engine σ} {round : Round σ ρ}
    (hlast : e.strategy = round.final.strategy) :
    (∀ source, round.Refuses source → (e.close round.outcome).2.lastOutcome = e.lastOutcome) ∧
      ((∀ source, ¬round.Refuses source) →
        (e.close round.outcome).2.lastOutcome = some round.outcome) := by
  have htold : Strategy.onEnd e.strategy round.outcome = round.told := by
    rw [hlast]
    rfl
  rw [close]
  constructor
  · intro source hrefuses
    simp only [hrefuses.error, htold, hrefuses.told]
  · intro hkept
    cases herror : round.outcome.error with
    | some source => rfl
    | none =>
        simp only [htold]
        cases hend : round.told.1 with
        | error source => exact absurd ⟨herror, hend⟩ (hkept source)
        | ok =>
            -- from here on the outcome is kept, whatever the strategy plans
            dsimp only
            split
            · rfl
            · split <;> rfl

/-! ## Playing rounds -/

/-- The next round of a session. -/
def round (e : Engine σ) (r : ρ) : Round σ ρ :=
  let (left, s) := harness r (.new e.iterations e.config e.strategy)
  ⟨e.strategy, r, s.settled, left⟩

/-- The session after the run of a round, which is still to be closed. -/
def ran (e : Engine σ) (round : Round σ ρ) : Engine σ :=
  { e with
    strategy := round.final.strategy
    iterations := e.iterations + 1
    report := e.report.merge round.final.report }

theorem runOnce_eq (e : Engine σ) (r : ρ) :
    e.runOnce harness r =
      ((e.round harness r).outcome, e.ran (e.round harness r), (e.round harness r).left) :=
  rfl

/-- The rounds of a session with the given budget. -/
def rounds : (budget : Nat) → Engine σ → ρ → List (Round σ ρ)
  | 0, _, _ => []
  | budget + 1, e, r =>
    let round := e.round harness r
    round ::
      match (e.ran round).close round.outcome with
      | (.next, e) => rounds budget e round.left
      | _ => []

/-- A round of a session, with what follows it and the session afterwards. -/
structure Played (e : Engine σ) (r : ρ) (round : Round σ ρ) (verdict : Verdict) (e' : Engine σ) :
    Prop where
  strategy : round.strategy = e.strategy
  given : round.given = r
  left : round.left = (harness r (.new e.iterations e.config e.strategy)).1
  final : round.final = (harness r (.new e.iterations e.config e.strategy)).2.settled
  config : e'.config = e.config
  iterations : e'.iterations = e.iterations + 1
  report : e'.report = e.report.merge round.final.report
  refused : ∀ source, round.Refuses source → e'.lastOutcome = e.lastOutcome
  kept : (∀ source, ¬round.Refuses source) → e'.lastOutcome = some round.outcome
  closes : round.Closes e.config verdict e'.strategy

theorem played_round (e : Engine σ) (r : ρ) :
    e.Played harness r (e.round harness r)
      ((e.ran (e.round harness r)).close (e.round harness r).outcome).1
      ((e.ran (e.round harness r)).close (e.round harness r).outcome).2 := by
  obtain ⟨hconfig, hiterations, hreport⟩ :=
    (e.ran (e.round harness r)).frame_close (e.round harness r).outcome
  obtain ⟨hrefused, hkept⟩ := lastOutcome_close (e := e.ran (e.round harness r)) rfl
  exact ⟨rfl, rfl, rfl, rfl, hconfig, hiterations, hreport, hrefused, hkept,
    closes_close (e.ran (e.round harness r)) rfl⟩

/-- How a session goes on, with the given budget left, from the iteration of the given number: the
rounds that are still played, and the end. -/
inductive Plays : (budget iteration : Nat) → Engine σ → ρ → List (Round σ ρ) →
    Except EngineError Unit × Engine σ × ρ → Prop
  /-- The budget is spent. -/
  | spent {i : Nat} {e : Engine σ} {r : ρ} : Plays 0 i e r [] (.ok (), e, r)
  /-- One round is played, and the session ends with an error. -/
  | failed {budget i : Nat} {e e' : Engine σ} {r : ρ} {round : Round σ ρ} {source : StrategyError}
      (played : e.Played harness r round (.failed source) e') :
      Plays (budget + 1) i e r [round] (.error ⟨i, source⟩, e', round.left)
  /-- One round is played, and the session ends. -/
  | done {budget i : Nat} {e e' : Engine σ} {r : ρ} {round : Round σ ρ}
      (played : e.Played harness r round .done e') :
      Plays (budget + 1) i e r [round] (.ok (), e', round.left)
  /-- One round is played, and others follow. -/
  | next {budget i : Nat} {e e' : Engine σ} {r : ρ} {round : Round σ ρ} {rounds : List (Round σ ρ)}
      {last : Except EngineError Unit × Engine σ × ρ}
      (played : e.Played harness r round .next e')
      (rest : Plays budget (i + 1) e' round.left rounds last) :
      Plays (budget + 1) i e r (round :: rounds) last

/-- An engine plays its rounds. -/
theorem plays_iterate (budget i : Nat) (e : Engine σ) (r : ρ) :
    Plays harness budget i e r (e.rounds harness budget r) (iterate harness budget i e r) := by
  induction budget generalizing i e r with
  | zero => exact .spent
  | succ budget ih =>
      have hplayed := e.played_round harness r
      rw [iterate, rounds, runOnce_eq]
      dsimp only
      generalize e.round harness r = round at hplayed ⊢
      rcases hclose : (e.ran round).close round.outcome with ⟨verdict, e'⟩
      rw [hclose] at hplayed
      cases verdict with
      | failed source => exact .failed hplayed
      | done => exact .done hplayed
      | next => exact .next hplayed (ih (i + 1) e' round.left)

end Engine

end Interleave
