import Interleave.Minimization.Session
import Interleave.Proofs.Engine.Accounting

/-!
# The last outcome of a session

An engine has three views of the rounds it has played: it counts them, it merges their reports, and
it remembers the outcome of the last one. Count and report are brought up to date as soon as a run
is over, the outcome only once the strategy has taken notice of its end (`Engine.Played.kept`). So
the three agree after every session, with one exception: a session that ends because the strategy
refuses the end of a run, as a minimization does that cannot reproduce its bug, leaves the outcome
of the round before, and none where there was no such round (`Engine.last_outcome_unless_refused`).
-/

namespace Interleave

namespace Engine

section Rounds

variable {σ ρ : Type} [Strategy σ]

variable {harness : Harness σ ρ} {budget i : Nat} {e : Engine σ} {r : ρ}
  {rounds front : List (Round σ ρ)} {round : Round σ ρ}
  {last : Except EngineError Unit × Engine σ × ρ}

/-- A round that is followed by another one is not refused. -/
theorem Played.lastOutcome_of_next {e' : Engine σ} (h : e.Played harness r round .next e') :
    e'.lastOutcome = some round.outcome := by
  apply h.kept
  intro source hrefuses
  have htold := h.closes.goesOn.1.told
  rw [hrefuses.told] at htold
  cases htold

/-- The report of a session has the reports of all rounds merged into it, in order. -/
theorem Plays.report_merged (h : Plays harness budget i e r rounds last) :
    last.2.1.report =
      rounds.foldl (fun report round => report.merge round.final.report) e.report := by
  induction h with
  | spent => rfl
  | failed played | done played => exact played.report
  | next played _ ih => rw [ih, played.report, List.foldl_cons]

/-- A session without a round changes nothing. -/
theorem Plays.eq_of_nil (h : Plays harness budget i e r [] last) : last.2.1 = e := by
  cases h with
  | spent => rfl

/-- The last round of a session is played by an engine that remembers the round before. -/
theorem Plays.exists_last (h : Plays harness budget i e r (front ++ [round]) last) :
    ∃ (before : Engine σ) (given : ρ) (verdict : Verdict),
      before.Played harness given round verdict last.2.1 ∧
        before.lastOutcome = (front.getLast?.map Round.outcome).or e.lastOutcome := by
  generalize hrounds : front ++ [round] = rounds at h
  -- the induction is on the session, and the rounds in front are those it has still to play
  induction h generalizing front with
  | spent => simp at hrounds
  | failed played | done played =>
      have hsingle : front ++ [round] = [] ++ [_] := hrounds
      obtain ⟨rfl, hround⟩ := List.append_inj' hsingle rfl
      obtain rfl := List.singleton_inj.mp hround
      exact ⟨_, _, _, played, rfl⟩
  | @next budget i e e' r first rounds last played rest ih =>
      cases front with
      | nil =>
          obtain ⟨rfl, rfl⟩ := List.cons.inj hrounds
          rw [← rest.eq_of_nil] at played
          exact ⟨_, _, _, played, rfl⟩
      | cons second front =>
          obtain ⟨rfl, hrest⟩ := List.cons.inj hrounds
          obtain ⟨before, given, verdict, hlast, hbefore⟩ := ih hrest
          refine ⟨before, given, verdict, hlast, ?_⟩
          rw [hbefore, played.lastOutcome_of_next, List.getLast?_cons]
          cases front.getLast? <;> rfl

/-- What an engine knows after a session, whatever it was before. It has counted all rounds and
merged their reports, in order. After the last round it remembers the outcome of this round, whether
the session ends in order, because the strategy has failed in the run, or because it plans no other
run or fails to. Only if the strategy refuses the end of the run, which ends the session with that
error, does the engine remember the outcome of the round before, or what it remembered before the
session if there was no such round. -/
theorem last_outcome_unless_refused (harness : Harness σ ρ) (e : Engine σ) (r : ρ) :
    let rounds := e.rounds harness e.config.iterations r
    let last := e.run harness r
    last.2.1.iterations = e.iterations + rounds.length ∧
    last.2.1.report =
      rounds.foldl (fun report round => report.merge round.final.report) e.report ∧
    (rounds = [] → last.2.1 = e) ∧
    ∀ front round, rounds = front ++ [round] →
      ((∀ source, ¬round.Refuses source) → last.2.1.lastOutcome = some round.outcome) ∧
      ∀ source, round.Refuses source →
        last.1 = .error ⟨front.length, source⟩ ∧
        last.2.1.lastOutcome = (front.getLast?.map Round.outcome).or e.lastOutcome := by
  intro rounds last
  have hplays : Plays harness e.config.iterations 0 e r rounds last :=
    plays_iterate harness e.config.iterations 0 e r
  refine ⟨hplays.iterations, hplays.report_merged, ?_, ?_⟩
  · intro hnil
    rw [hnil] at hplays
    exact hplays.eq_of_nil
  · intro front round hrounds
    have hlength : rounds.length = front.length + 1 := by rw [hrounds]; simp
    have hlastRound : rounds.getLast? = some round := by rw [hrounds]; simp
    obtain ⟨before, given, verdict, hplayed, hbefore⟩ := (hrounds ▸ hplays).exists_last
    refine ⟨hplayed.kept, ?_⟩
    intro source hrefuses
    refine ⟨?_, ?_⟩
    · rw [hplays.error_iff, hlength, Nat.zero_add]
      exact ⟨rfl, round, hlastRound, _, .refused hrefuses.error hrefuses.told⟩
    · rw [hplayed.refused source hrefuses, hbefore]

end Rounds

/-! ## A bug that does not occur again -/

/-- A minimization of a schedule in which the coin does not come up, and an engine for it. -/
def harmlessToss : Engine (Minimization.Session Scripted) :=
  .new {} (.ofSchedule #[.boolean false] {} {} {} .always none)

/-- The run of the schedule finds no bug, which the minimization refuses. The run is counted and
reported, and its outcome is lost. -/
theorem last_outcome_lost_of_harmlessToss :
    let rounds := harmlessToss.rounds coinToss.harness harmlessToss.config.iterations #[]
    let last := harmlessToss.run coinToss.harness #[]
    last.1 = .error ⟨0, .notReproducible .schedule⟩ ∧ last.2.1.iterations = 1 ∧
      last.2.1.report.runs = 1 ∧
      rounds.map (fun round => round.outcome.schedule) = [#[.boolean false]] ∧
      last.2.1.lastOutcome = none := by
  decide +kernel

end Engine

end Interleave
