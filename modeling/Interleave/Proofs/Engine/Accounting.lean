import Interleave.Proofs.Engine.Reports
import Interleave.Proofs.Engine.Rounds
import Interleave.Strategy.Scripted

/-!
# The accounts of a session

What an engine counts, reports and returns is settled by its rounds. Each of its accounts is kept by
every way in which a session goes on (`Engine.Plays`): the number of rounds, the strategy that is
handed from one to the next, the error at the end, what the strategy has been told of, and the
report, which is that of the runs recorded one by one (`TestReport.merge_record`). Together they
make the balance of a session (`Engine.run_accounts`).
-/

namespace Interleave

variable {σ ρ : Type} [Strategy σ]

/-! ## What a strategy is told -/

/-- A part of the states of a strategy that records the ends of runs it is told of: that they are
told appends them, in order, and nothing else changes it. -/
structure Strategy.RecordsEnds (told : σ → List Outcome) : Prop where
  moves : ∀ {e : Exchange} {s s' : σ}, e.Moves s s' → told s' = told s
  onEnd : ∀ (s : σ) (outcome : Outcome), told (Strategy.onEnd s outcome).2 = told s ++ [outcome]
  prepare : ∀ s : σ, told (Strategy.prepare s).2 = told s

theorem Strategy.RecordsEnds.follows {told : σ → List Outcome} (h : Strategy.RecordsEnds told)
    {s s' : σ} {l : List Exchange} (hl : Follows s l s') : told s' = told s := by
  induction l generalizing s with
  | nil => rw [follows_nil.mp hl]
  | cons e l ih =>
      obtain ⟨middle, he, hrest⟩ := hl
      rw [ih hrest, h.moves he]

namespace Round

variable {c : Configuration} {round : Round σ ρ} {verdict : Engine.Verdict} {q : σ}

/-- The strategy is told of the end of a run unless it has failed in it. -/
theorem Closes.told {told : σ → List Outcome} (h : Strategy.RecordsEnds told)
    (hcloses : round.Closes c verdict q) :
    told q = told round.final.strategy ++ [round.outcome].filter (·.error.isNone) := by
  have htold : told round.told.2 = told round.final.strategy ++ [round.outcome] := h.onEnd _ _
  have hplanned : told round.planned.2 = told round.told.2 := h.prepare _
  cases hcloses with
  | failed error => simp [error]
  | refused error | found error => simp [error, htold]
  | unplanned error | exhausted error => simp [error, hplanned, htold]
  | next goesOn => simp [goesOn.error, hplanned, htold]

/-- The round is a run of the harness on a new scheduler of the given number, of which it makes
calls. -/
def IsRun (harness : Harness σ ρ) (c : Configuration) (k : Nat) (round : Round σ ρ) : Prop :=
  ∃ calls, let s := (Scheduler.new k c round.strategy).afterAll calls
    harness round.given (.new k c round.strategy) = (round.left, s) ∧ round.final = s.settled

/-- What a report becomes when the run of the round is recorded. -/
def recordIn (c : Configuration) (report : TestReport) (round : Round σ ρ) : TestReport :=
  report.record round.outcome (Strategy.isFair round.final.strategy)
    (Strategy.boundReached round.final.strategy) c

theorem recordIn_named (c : Configuration) (report : TestReport) (round : Round σ ρ)
    (name : String) :
    round.recordIn c (report.named name) = (round.recordIn c report).named name :=
  report.record_named _ _ _ c name

@[simp]
theorem strategy_recordIn (c : Configuration) (report : TestReport) (round : Round σ ρ) :
    (round.recordIn c report).strategy = report.strategy :=
  report.strategy_record _ _ _ c

/-- Every run that is recorded counts. -/
theorem runs_foldl_recordIn (c : Configuration) (report : TestReport) (rounds : List (Round σ ρ)) :
    (rounds.foldl (recordIn c) report).runs = report.runs + rounds.length := by
  induction rounds generalizing report with
  | nil => rfl
  | cons round rounds ih =>
      have hfirst : (round.recordIn c report).runs = report.runs + 1 := report.runs_record _ _ _ c
      rw [List.foldl_cons, ih, hfirst, List.length_cons]
      omega

/-- The bugs of a report are those of the runs that are recorded. -/
theorem bugs_foldl_recordIn (c : Configuration) (report : TestReport) (rounds : List (Round σ ρ)) :
    (rounds.foldl (recordIn c) report).bugs =
      report.bugs + rounds.countP (·.outcome.bug.isSome) := by
  induction rounds generalizing report with
  | nil => rfl
  | cons round rounds ih =>
      have hfirst : (round.recordIn c report).bugs =
          report.bugs + round.outcome.bug.isSome.toNat := report.bugs_record _ _ _ c
      rw [List.foldl_cons, ih, hfirst, List.countP_cons]
      cases round.outcome.bug.isSome with
      | true => simp only [Bool.toNat_true, if_true]; omega
      | false => simp

/-- The description of the strategy at the end of the round. -/
def name (round : Round σ ρ) : String :=
  Strategy.describe round.final.strategy

end Round

namespace Engine

variable {harness : Harness σ ρ} {budget i : Nat} {e e' : Engine σ} {r : ρ}
  {rounds : List (Round σ ρ)} {last : Except EngineError Unit × Engine σ × ρ}

/-! ## One round -/

section Played

variable {round : Round σ ρ} {verdict : Verdict}

theorem Played.isRun (h : e.Played harness r round verdict e') (hcalls : harness.OnlyCalls) :
    round.IsRun harness e.config e.iterations := by
  obtain ⟨calls, hmade⟩ := hcalls r (.new e.iterations e.config e.strategy)
  refine ⟨calls, ?_, ?_⟩
  · rw [h.given, h.strategy, h.left, ← hmade]
  · rw [h.strategy, h.final, hmade]

/-- A round is reported by recording its run. -/
theorem Played.report_eq (h : e.Played harness r round verdict e') (hcalls : harness.OnlyCalls) :
    e'.report = round.recordIn e.config
      (e.report.named (TestReport.firstName [e.report.strategy, round.name])) := by
  obtain ⟨calls, -, hfinal⟩ := h.isRun hcalls
  have hconfig : round.final.config = e.config := by
    rw [hfinal, Scheduler.config_settled, Scheduler.config_afterAll]
    rfl
  rw [h.report, Scheduler.report, hconfig, TestReport.merge_record]
  rfl

/-- Whoever records the ends of runs hears of this one, unless the strategy has failed in it. -/
theorem Played.told (h : e.Played harness r round verdict e') (hcalls : harness.OnlyCalls)
    {told : σ → List Outcome} (hrecords : Strategy.RecordsEnds told) :
    told e'.strategy = told e.strategy ++ [round.outcome].filter (·.error.isNone) := by
  obtain ⟨calls, -, hfinal⟩ := h.isRun hcalls
  have hrun := Scheduler.follows_saidAll (.new e.iterations e.config round.strategy) calls
  rw [h.closes.told hrecords, hfinal, Scheduler.strategy_settled, hrecords.follows hrun,
    ← h.strategy]
  rfl

end Played

/-! ## All rounds -/

theorem Plays.length_le (h : Plays harness budget i e r rounds last) : rounds.length ≤ budget := by
  induction h with
  | spent => exact Nat.le_refl 0
  | failed | done => exact Nat.succ_le_succ (Nat.zero_le _)
  | next _ _ ih => exact Nat.succ_le_succ ih

theorem Plays.length_pos (h : Plays harness budget i e r rounds last) :
    0 < rounds.length ↔ 0 < budget := by
  cases h with
  | spent => exact Iff.rfl
  | failed | done | next => exact iff_of_true (Nat.succ_pos _) (Nat.succ_pos _)

theorem Plays.iterations (h : Plays harness budget i e r rounds last) :
    last.2.1.iterations = e.iterations + rounds.length := by
  induction h with
  | spent => rfl
  | failed played | done played => exact played.iterations
  | next played _ ih =>
      rw [ih, played.iterations, List.length_cons]
      omega

/-- The first round is played with what the session has at its start. -/
theorem Plays.first (h : Plays harness budget i e r rounds last) {round : Round σ ρ}
    (hround : rounds[0]? = some round) : round.strategy = e.strategy ∧ round.given = r := by
  cases h with
  | spent => cases hround
  | failed played | done played | next played =>
      obtain rfl := Option.some.inj hround
      exact ⟨played.strategy, played.given⟩

theorem Plays.isRun (h : Plays harness budget i e r rounds last) (hcalls : harness.OnlyCalls)
    {k : Nat} {round : Round σ ρ} (hround : rounds[k]? = some round) :
    round.IsRun harness e.config (e.iterations + k) := by
  induction h generalizing k with
  | spent => cases hround
  | failed played | done played =>
      cases k with
      | zero =>
          obtain rfl := Option.some.inj hround
          exact played.isRun hcalls
      | succ k => cases hround
  | next played _ ih =>
      cases k with
      | zero =>
          obtain rfl := Option.some.inj hround
          exact played.isRun hcalls
      | succ k =>
          have hrest := ih hround
          rwa [played.config, played.iterations, Nat.add_right_comm] at hrest

/-- A round that follows another one is played with what the other one has left. -/
theorem Plays.link (h : Plays harness budget i e r rounds last) {k : Nat} {round next : Round σ ρ}
    (hround : rounds[k]? = some round) (hnext : rounds[k + 1]? = some next) :
    next.strategy = round.planned.2 ∧ next.given = round.left := by
  induction h generalizing k with
  | spent => cases hround
  | failed | done => cases hnext
  | next played rest ih =>
      cases k with
      | zero =>
          obtain rfl := Option.some.inj hround
          obtain ⟨hstrategy, hgiven⟩ := rest.first hnext
          exact ⟨hstrategy.trans played.closes.goesOn.2, hgiven⟩
      | succ k => exact ih hround hnext

/-- A session goes on after a round for as long as there are reasons and budget for it. -/
theorem Plays.goesOn_iff (h : Plays harness budget i e r rounds last) {k : Nat}
    {round : Round σ ρ} (hround : rounds[k]? = some round) :
    k + 1 < rounds.length ↔ round.GoesOn e.config ∧ k + 1 < budget := by
  induction h generalizing k with
  | spent => cases hround
  | failed played | done played =>
      cases k with
      | zero =>
          obtain rfl := Option.some.inj hround
          have hnot := played.closes.not_goesOn nofun
          exact iff_of_false (Nat.lt_irrefl 1) fun hgoes => hnot hgoes.1
      | succ k => cases hround
  | next played rest ih =>
      cases k with
      | zero =>
          obtain rfl := Option.some.inj hround
          have hgoes := played.closes.goesOn.1
          rw [List.length_cons, Nat.add_lt_add_iff_right, rest.length_pos,
            Nat.add_lt_add_iff_right]
          exact (and_iff_right hgoes).symm
      | succ k =>
          rw [List.length_cons, Nat.add_lt_add_iff_right, Nat.add_lt_add_iff_right,
            ← played.config]
          exact ih hround

/-- A session ends with an error if and only if its last round fails with it. -/
theorem Plays.error_iff (h : Plays harness budget i e r rounds last) (error : EngineError) :
    last.1 = .error error ↔ error.iteration + 1 = i + rounds.length ∧
      ∃ round ∈ rounds.getLast?, round.Fails e.config error.source := by
  induction h with
  | spent => simp
  | failed played =>
      obtain ⟨iteration, source⟩ := error
      simp [played.closes.fails_iff, eq_comm]
  | done played => simp [played.closes.fails_iff]
  | @next budget i e e' r round rounds last played rest ih =>
      rw [ih, played.config]
      -- a round with others behind it is not the last one, and the last one goes on
      cases rounds with
      | nil => simp [played.closes.fails_iff]
      | cons second others =>
          rw [List.getLast?_cons_cons, List.length_cons (a := round), Nat.add_right_comm i 1,
            Nat.add_assoc i]

/-- Whoever records the ends of runs hears of all that the strategy has not failed in, in order and
once. -/
theorem Plays.told (h : Plays harness budget i e r rounds last) (hcalls : harness.OnlyCalls)
    {told : σ → List Outcome} (hrecords : Strategy.RecordsEnds told) :
    told last.2.1.strategy =
      told e.strategy ++ (rounds.map Round.outcome).filter (·.error.isNone) := by
  induction h with
  | spent => exact (List.append_nil _).symm
  | failed played | done played => exact played.told hcalls hrecords
  | next played _ ih =>
      rw [ih, played.told hcalls hrecords, List.append_assoc, ← List.filter_append]
      rfl

/-- The report of a session is that of its runs, recorded one by one. -/
theorem Plays.report (h : Plays harness budget i e r rounds last) (hcalls : harness.OnlyCalls) :
    last.2.1.report = rounds.foldl (Round.recordIn e.config)
      (e.report.named (TestReport.firstName (e.report.strategy :: rounds.map Round.name))) := by
  induction h with
  | spent =>
      rw [List.map_nil, TestReport.firstName_singleton]
      rfl
  | failed played | done played => exact played.report_eq hcalls
  | next played _ ih =>
      rw [ih, played.config, played.report_eq hcalls, Round.strategy_recordIn,
        ← Round.recordIn_named, TestReport.named_named, TestReport.strategy_named,
        TestReport.firstName_firstName, List.map_cons, List.foldl_cons]

/-- The accounts of a session agree with its rounds. They are no more than the configured number of
iterations, they are counted, and each is a run of the harness, by calls, on a new scheduler. The
first one is played with the strategy and the harness as given, and each further one with what the
one before has left, where the strategy has been told how the run ended and has then planned
another one. Whatever a strategy records of the runs whose end it is told of is, at the end, what
it was before and, once each and in order, the outcomes of the rounds without an error. There is a
round if there is budget for it, and the session goes on after a round if and only if it has no
error, the strategy takes it well and plans another one, no bug is to end the session and budget
remains. The session ends with an error if and only if its last round fails with it, and the error
carries the index of that round. The report is what one gets by recording the runs one by one, under
the first name that a strategy had; so it counts all rounds, and all bugs. -/
theorem run_accounts {harness : Harness σ ρ} (hcalls : harness.OnlyCalls) (c : Configuration)
    (q : σ) (r : ρ) :
    let rounds := (new c q).rounds harness c.iterations r
    let last := (new c q).run harness r
    rounds.length ≤ c.iterations ∧ last.2.1.iterations = rounds.length ∧
    (∀ (k : Nat) (round : Round σ ρ), rounds[k]? = some round → round.IsRun harness c k) ∧
    (∀ round : Round σ ρ, rounds[0]? = some round → round.strategy = q ∧ round.given = r) ∧
    (∀ (k : Nat) (round next : Round σ ρ), rounds[k]? = some round →
      rounds[k + 1]? = some next → next.strategy = round.planned.2 ∧ next.given = round.left) ∧
    (∀ told : σ → List Outcome, Strategy.RecordsEnds told →
      told last.2.1.strategy =
        told q ++ (rounds.map Round.outcome).filter (·.error.isNone)) ∧
    (0 < rounds.length ↔ 0 < c.iterations) ∧
    (∀ (k : Nat) (round : Round σ ρ), rounds[k]? = some round →
      (k + 1 < rounds.length ↔ round.GoesOn c ∧ k + 1 < c.iterations)) ∧
    (∀ error : EngineError, last.1 = .error error ↔ error.iteration + 1 = rounds.length ∧
      ∃ round ∈ rounds.getLast?, round.Fails c error.source) ∧
    last.2.1.report = rounds.foldl (Round.recordIn c)
      { strategy := TestReport.firstName (rounds.map Round.name) } ∧
    last.2.1.report.runs = rounds.length ∧
    last.2.1.report.bugs = rounds.countP (·.outcome.bug.isSome) := by
  intro rounds last
  have hplays : Plays harness c.iterations 0 (new c q) r rounds last :=
    plays_iterate harness c.iterations 0 (new c q) r
  have hreport : last.2.1.report = rounds.foldl (Round.recordIn c)
      { strategy := TestReport.firstName (rounds.map Round.name) } := hplays.report hcalls
  have hindex (k : Nat) : 0 + k = k := Nat.zero_add k
  refine ⟨hplays.length_le, hplays.iterations.trans (hindex _), fun k round hround => ?_,
    fun round hround => hplays.first hround,
    fun k round next hround hnext => hplays.link hround hnext,
    fun told hrecords => hplays.told hcalls hrecords, hplays.length_pos,
    fun k round hround => hplays.goesOn_iff hround, fun error => ?_, hreport, ?_, ?_⟩
  · have hrun := hplays.isRun hcalls hround
    rwa [show (new c q).iterations + k = k from hindex k] at hrun
  · have herror := hplays.error_iff error
    rwa [hindex] at herror
  · rw [hreport, Round.runs_foldl_recordIn]
    exact hindex _
  · rw [hreport, Round.bugs_foldl_recordIn]
    exact hindex _

end Engine

/-! ## An audited session -/

/-- A strategy that leaves everything to another one and keeps the outcomes that it is told of. -/
structure Audited (σ : Type) where
  inner : σ
  ended : List Outcome

namespace Audited

/-- Pass a request on to the inner strategy. -/
def delegate {α : Type} (s : Audited σ) (request : σ → α × σ) : α × Audited σ :=
  let (answer, inner) := request s.inner
  (answer, { s with inner })

end Audited

instance : Strategy (Audited σ) where
  nextOperation s choices current := s.delegate fun i => Strategy.nextOperation i choices current
  nextBoolean s max := s.delegate fun i => Strategy.nextBoolean i max
  nextInteger s max := s.delegate fun i => Strategy.nextInteger i max
  forceOperation s id choices current :=
    s.delegate fun i => Strategy.forceOperation i id choices current
  forceBoolean s max b := s.delegate fun i => Strategy.forceBoolean i max b
  forceInteger s max n := s.delegate fun i => Strategy.forceInteger i max n
  prepare s := s.delegate Strategy.prepare
  reset s := { s with inner := Strategy.reset s.inner }
  steps s := Strategy.steps s.inner
  boundReached s := Strategy.boundReached s.inner
  isFair s := Strategy.isFair s.inner
  describe s := Strategy.describe s.inner
  observe s n := { s with inner := Strategy.observe s.inner n }
  onSend s sender target event := s.delegate fun i => Strategy.onSend i sender target event
  onEnd s outcome :=
    { s with ended := s.ended ++ [outcome] }.delegate fun i => Strategy.onEnd i outcome

theorem Audited.recordsEnds : Strategy.RecordsEnds (Audited.ended : Audited σ → List Outcome) where
  moves {e s s'} h := by
    cases e with
    | bound _ | fairness _ => rw [h.2]
    | operation _ _ _ | boolean _ _ | integer _ _ | send _ _ _ _ =>
        exact (congrArg (·.2.ended) h).symm
    | notice n => exact (congrArg Audited.ended h).symm
    | logged _ => exact congrArg Audited.ended h
  onEnd _ _ := rfl
  prepare _ := rfl

/-- A program that tosses a coin and fails if it comes up. -/
def coinToss : Program Nat where
  act
    | _, 0 => .boolean none fun up => if up then 2 else 1
    | _, 1 => .finish
    | _, _ => .fail "the coin has come up"
  main := 0

/-- Tosses down, up, and then no more. -/
def threeTosses : Audited Scripted where
  inner :=
    { answers := [.flag false, .nothing, .flag true, .fail "no more tosses"]
      runs := []
      withheld := []
      fair := true
      maxSteps := 0
      endError := none
      refusals := ⟨"", "", ""⟩ }
  ended := []

/-- Of five iterations three take place: a run without a bug, one with a bug, and one that the
strategy fails in. The strategy is told of the first two. -/
theorem Engine.run_accounts_of_threeTosses :
    let c : Configuration := { iterations := 5, stopAfterFirstBug := false }
    let rounds := (new c threeTosses).rounds coinToss.harness c.iterations #[]
    let last := (new c threeTosses).run coinToss.harness #[]
    rounds.map (·.outcome.bug.isSome) = [false, true, false] ∧ last.2.1.iterations = 3 ∧
      last.2.1.strategy.ended = (rounds.take 2).map Round.outcome ∧
      last.1 = .error ⟨2, .other "no more tosses"⟩ ∧
      (∃ round ∈ rounds.getLast?, round.Fails c (.other "no more tosses")) ∧
      last.2.1.report.runs = 3 ∧ last.2.1.report.bugs = 1 := by
  intro c rounds last
  have hbugs : rounds.map (·.outcome.bug.isSome) = [false, true, false] := by decide +kernel
  have htaken : (rounds.map Round.outcome).filter (·.error.isNone) =
      (rounds.take 2).map Round.outcome := by decide +kernel
  have herror : last.1 = .error ⟨2, .other "no more tosses"⟩ := by decide +kernel
  have hlength : rounds.length = 3 := by simpa using congrArg List.length hbugs
  have hone : rounds.countP (·.outcome.bug.isSome) = 1 := by
    simpa [List.countP_map] using congrArg (List.countP id) hbugs
  obtain ⟨-, hcount, -, -, -, htold, -, -, hfails, -, hruns, hfound⟩ :=
    run_accounts (Program.onlyCalls_harness coinToss) c threeTosses #[]
  -- rounds and end are named, so that nothing below runs the session again
  have hrounds : (new c threeTosses).rounds coinToss.harness c.iterations #[] = rounds := rfl
  have hrun : (new c threeTosses).run coinToss.harness #[] = last := rfl
  rw [hrounds, hrun] at hcount hfails hruns hfound
  have hended := htold Audited.ended Audited.recordsEnds
  rw [hrounds, hrun, htaken] at hended
  obtain ⟨-, hlast⟩ := (hfails ⟨2, .other "no more tosses"⟩).mp herror
  refine ⟨hbugs, ?_, ?_, herror, hlast, ?_, ?_⟩
  · exact hcount.trans hlength
  · exact hended
  · exact hruns.trans hlength
  · exact hfound.trans hone

end Interleave
