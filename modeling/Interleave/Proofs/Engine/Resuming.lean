import Interleave.Proofs.Engine.Accounting
import Interleave.Proofs.EventTree.Growth
import Interleave.Proofs.Minimization.Repeating

/-!
# Resumed sessions

An engine whose session has ended can be run again. It goes on with the strategy as it is, and one
that records its runs begins a new recording only where it is asked for another run. A session that
ends before that, at its first bug or with an error, leaves its recording behind, and the first
round of the next session is recorded on top of it. So a summary is that of its round alone wherever
the round before has been followed by a request for another run, and in any other case it contains
the steps that were left (`Engine.summaries_of_resumed_sessions`).
-/

namespace Interleave

/-! ## Rounds of several sessions -/

section Rounds

variable {σ ρ : Type} [Strategy σ]

/-- Rounds that are played one after the other, each with the strategy that the one before has left,
from one state of the strategy to another. -/
inductive Round.Chain (c : Configuration) : σ → List (Round σ ρ) → σ → Prop
  | nil {s : σ} : Chain c s [] s
  | cons {round : Round σ ρ} {rounds : List (Round σ ρ)} {verdict : Engine.Verdict} {s last : σ}
      (closes : round.Closes c verdict s) (rest : Chain c s rounds last) :
      Chain c round.strategy (round :: rounds) last

namespace Round

variable {c : Configuration} {s last : σ} {rounds : List (Round σ ρ)} {round : Round σ ρ}

theorem Chain.append {s' : σ} {rounds' : List (Round σ ρ)} (h : Chain c s rounds s')
    (h' : Chain c s' rounds' last) : Chain c s (rounds ++ rounds') last := by
  induction h with
  | nil => exact h'
  | cons closes _ ih => exact .cons closes (ih h')

/-- The first round is played with the strategy at the start. -/
theorem Chain.first (h : Chain c s rounds last) (hround : rounds[0]? = some round) :
    round.strategy = s := by
  cases h with
  | nil => cases hround
  | cons =>
      cases hround
      rfl

/-- Every other round is played with the strategy that the one before has left. -/
theorem Chain.next {before : Round σ ρ} {k : Nat} (h : Chain c s rounds last)
    (hbefore : rounds[k]? = some before) (hround : rounds[k + 1]? = some round) :
    ∃ verdict, before.Closes c verdict round.strategy := by
  induction h generalizing k with
  | nil => cases hbefore
  | cons closes rest ih =>
      cases k with
      | zero =>
          cases hbefore
          rw [rest.first hround]
          exact ⟨_, closes⟩
      | succ k => exact ih hbefore hround

end Round

namespace Engine

/-- The rounds of several sessions that one engine plays, each with a harness of its own. -/
def allRounds : List (Harness σ ρ) → Engine σ → ρ → List (Round σ ρ)
  | [], _, _ => []
  | harness :: harnesses, e, r =>
    let last := e.run harness r
    e.rounds harness e.config.iterations r ++ allRounds harnesses last.2.1 last.2.2

theorem allRounds_cons (harness : Harness σ ρ) (harnesses : List (Harness σ ρ)) (e : Engine σ)
    (r : ρ) : e.allRounds (harness :: harnesses) r = e.rounds harness e.config.iterations r ++
      (e.run harness r).2.1.allRounds harnesses (e.run harness r).2.2 :=
  rfl

variable {harness : Harness σ ρ} {budget i : Nat} {e : Engine σ} {r : ρ}
  {rounds : List (Round σ ρ)} {last : Except EngineError Unit × Engine σ × ρ}

theorem Plays.chain (h : Plays harness budget i e r rounds last) :
    Round.Chain e.config e.strategy rounds last.2.1.strategy ∧ last.2.1.config = e.config := by
  induction h with
  | spent => exact ⟨.nil, rfl⟩
  | failed played | done played =>
      rw [← played.strategy]
      exact ⟨.cons played.closes .nil, played.config⟩
  | next played _ ih =>
      rw [← played.strategy]
      rw [played.config] at ih
      exact ⟨.cons played.closes ih.1, ih.2⟩

/-- The strategy meets the run of a round in a dialogue. -/
theorem Plays.exists_dialogue (h : Plays harness budget i e r rounds last)
    (hcalls : harness.OnlyCalls) : ∀ round ∈ rounds, ∃ l,
      Follows round.strategy l round.final.strategy := by
  intro round hround
  obtain ⟨k, hk⟩ := List.mem_iff_getElem?.mp hround
  -- a harness that only makes calls shows the strategy what these calls say
  obtain ⟨calls, -, hfinal⟩ := h.isRun hcalls hk
  let first : Scheduler σ := .new (e.iterations + k) e.config round.strategy
  refine ⟨first.saidAll calls, ?_⟩
  rw [hfinal, Scheduler.strategy_settled]
  exact first.follows_saidAll calls

theorem chain_allRounds (harnesses : List (Harness σ ρ)) (e : Engine σ) (r : ρ) :
    ∃ last, Round.Chain e.config e.strategy (e.allRounds harnesses r) last := by
  induction harnesses generalizing e r with
  | nil => exact ⟨e.strategy, .nil⟩
  | cons harness harnesses ih =>
      obtain ⟨hfirst, hconfig⟩ := (plays_iterate harness e.config.iterations 0 e r).chain
      obtain ⟨last, hrest⟩ := ih (e.run harness r).2.1 (e.run harness r).2.2
      rw [show (e.run harness r).2.1.config = e.config from hconfig] at hrest
      rw [allRounds_cons]
      exact ⟨last, hfirst.append hrest⟩

theorem exists_dialogue_allRounds {harnesses : List (Harness σ ρ)}
    (hcalls : ∀ harness ∈ harnesses, harness.OnlyCalls) (e : Engine σ) (r : ρ) :
    ∀ round ∈ e.allRounds harnesses r, ∃ l, Follows round.strategy l round.final.strategy := by
  induction harnesses generalizing e r with
  | nil =>
      intro round hround
      exact absurd hround List.not_mem_nil
  | cons harness harnesses ih =>
      intro round hround
      obtain ⟨hharness, hrest⟩ := List.forall_mem_cons.mp hcalls
      rw [allRounds_cons] at hround
      rcases List.mem_append.mp hround with hfirst | hlater
      · have hplays := plays_iterate harness e.config.iterations 0 e r
        exact hplays.exists_dialogue hharness round hfirst
      · exact ih hrest _ _ round hlater

end Engine

end Rounds

/-! ## Recordings -/

namespace Recorder

variable {r : Recorder}

theorem Sound.recordEnd (h : r.Sound) (bug : Option BugKind) : (r.recordEnd bug).Sound := by
  rcases bug with _ | bug
  · exact h
  · cases bug <;> exact ⟨h.latest, h.creates, h.sends, h.withheld⟩

/-- What is recorded of a dialogue is as many steps, whatever has been recorded before. -/
theorem Sound.size_hearAll {r' : Recorder} (h : r.Sound) (h' : r'.Sound) (l : List Exchange) :
    (r.hearAll l).tree.size + r'.tree.size = (r'.hearAll l).tree.size + r.tree.size := by
  induction l generalizing r r' with
  | nil => exact Nat.add_comm _ _
  | cons e l ih =>
      have hrest := ih (h.hear e).1 (h'.hear e).1
      cases hdeed : e.deed? with
      | none =>
          have hsize : ∀ r : Recorder, (r.hear e).tree.size = r.tree.size := fun r =>
            congrArg EventTree.size (hear_of_deed?_eq_none hdeed r).1
          rw [hsize, hsize] at hrest
          exact hrest
      | some deed =>
          -- a deed adds one step to any recording
          obtain ⟨kind, source, target⟩ := deed
          have hsize := (h.grows_hear hdeed).size
          have hsize' := (h'.grows_hear hdeed).size
          rw [hearAll_cons, hearAll_cons]
          omega

end Recorder

/-! ## What a round leaves -/

section Recorded

variable {σ ρ : Type} [Strategy σ]

namespace Round

/-- The session asks for another run after the round: the run has no error, the strategy has taken
notice of it, and there is no bug at which the session is to end. -/
structure Prepares (c : Configuration) (round : Round (Recorded σ) ρ) : Prop where
  error : round.outcome.error = none
  told : round.told.1 = .ok ()
  bug : round.outcome.bug = none ∨ c.stopAfterFirstBug = false

/-- The recording of the round as the session leaves it where it does not ask for another run: with
the result of the run, if the strategy has been told of it. -/
def leftover (round : Round (Recorded σ) ρ) : Recorder :=
  match round.outcome.error with
  | some _ => round.final.strategy.recorder
  | none => round.final.strategy.recorder.recordEnd (round.outcome.bug.map (·.kind))

/-- The tree of the run of which the strategy was told at the end of the round. -/
def summarized (round : Round (Recorded σ) ρ) : Option EventTree :=
  round.told.2.lastSummary.map (·.tree)

variable {c : Configuration} {round : Round (Recorded σ) ρ} {verdict : Engine.Verdict}
  {s : Recorded σ} {l : List Exchange}

theorem recorder_told (round : Round (Recorded σ) ρ) :
    round.told.2.recorder =
      round.final.strategy.recorder.recordEnd (round.outcome.bug.map (·.kind)) :=
  rfl

theorem recorder_planned (round : Round (Recorded σ) ρ) : round.planned.2.recorder = .empty :=
  rfl

/-- Once another run has been asked for, the recording is empty. -/
theorem Closes.recorder_of_prepares (h : round.Closes c verdict s) (hprepares : round.Prepares c) :
    s.recorder = .empty := by
  have hbug : ∀ {P : Prop}, round.outcome.bug ≠ none → c.stopAfterFirstBug = true → P := by
    intro P hfound hstop
    rcases hprepares.bug with hnone | hoff
    · exact absurd hnone hfound
    · rw [hstop] at hoff
      cases hoff
  -- what is left are the ends behind the request for another run, which empties the recording
  cases h with
  | failed error =>
      rw [hprepares.error] at error
      cases error
  | refused error told =>
      rw [hprepares.told] at told
      cases told
  | found error told bug stop => exact hbug bug stop
  | unplanned | exhausted | next => exact round.recorder_planned

/-- Otherwise the recording of the round is left. -/
theorem Closes.recorder_of_not_prepares (h : round.Closes c verdict s)
    (hprepares : ¬round.Prepares c) : s.recorder = round.leftover := by
  rw [leftover]
  cases h with
  | failed error => rw [error]
  | refused error | found error => rw [error]; exact round.recorder_told
  | unplanned error told bug | exhausted error told bug =>
      exact absurd ⟨error, told, bug⟩ hprepares
  | next goesOn => exact absurd ⟨goesOn.error, goesOn.told, goesOn.bug⟩ hprepares

/-- What the strategy is told of is the recording at the start of the round, with the round on top
of it. -/
theorem summarized_eq (hl : Follows round.strategy l round.final.strategy) :
    round.summarized = some ((round.strategy.recorder.hearAll l).recordEnd
      (round.outcome.bug.map (·.kind))).tree := by
  have hrecorder : round.final.strategy.recorder = round.strategy.recorder.hearAll l :=
    Records.hearsAll hl
  rw [← hrecorder]
  rfl

theorem sound_leftover (hsound : round.strategy.recorder.Sound)
    (hl : Follows round.strategy l round.final.strategy) : round.leftover.Sound := by
  have hrecorder : round.final.strategy.recorder = round.strategy.recorder.hearAll l :=
    Records.hearsAll hl
  have hfinal : round.final.strategy.recorder.Sound := by
    rw [hrecorder]
    exact (hsound.hearAll l).1
  rw [leftover]
  split
  · exact hfinal
  · exact hfinal.recordEnd _

/-- The summary stays when another run is asked for. -/
theorem Closes.lastSummary (h : round.Closes c verdict s) (herror : round.outcome.error = none) :
    s.lastSummary.map (·.tree) = round.summarized := by
  cases h with
  | failed error =>
      rw [herror] at error
      cases error
  | _ => rfl

/-- The recordings at the starts of all rounds are in order. -/
theorem Chain.sound {rounds : List (Round (Recorded σ) ρ)} {last : Recorded σ}
    (h : Chain c s rounds last) (hsound : s.recorder.Sound)
    (hdialogues : ∀ round ∈ rounds, ∃ l, Follows round.strategy l round.final.strategy) :
    ∀ round ∈ rounds, round.strategy.recorder.Sound := by
  induction h with
  | nil =>
      intro round hround
      exact absurd hround List.not_mem_nil
  | @cons first rounds verdict s last closes _ ih =>
      obtain ⟨⟨l, hl⟩, hrest⟩ := List.forall_mem_cons.mp hdialogues
      -- the next round begins with no recording or with the one that this round has left
      refine List.forall_mem_cons.mpr ⟨hsound, ih ?_ hrest⟩
      by_cases hprepares : first.Prepares c
      · rw [closes.recorder_of_prepares hprepares]
        exact Recorder.sound_empty
      · rw [closes.recorder_of_not_prepares hprepares]
        exact sound_leftover hsound hl

end Round

/-- An engine with a recording strategy is run several times, each time with some harness, however
the sessions end. The summary of a round is the tree that a new recorder makes of the dialogue of
that round, with its result, in the first round and in every round before which another run has been
asked for. In every other round, the first of a session after one that ended at a bug or with an
error, it is what a recorder makes of the dialogue on top of the recording that was left: that
comes first, and the tree has all its steps too many. -/
theorem Engine.summaries_of_resumed_sessions {harnesses : List (Harness (Recorded σ) ρ)}
    (hcalls : ∀ harness ∈ harnesses, harness.OnlyCalls) (c : Configuration) (q : σ) (r : ρ) :
    let rounds := (Engine.new c (Recorded.ofStrategy q)).allRounds harnesses r
    ∀ k round, rounds[k]? = some round → round.outcome.error = none →
      (∀ verdict s, round.Closes c verdict s → s.lastSummary.map (·.tree) = round.summarized) ∧
      (∃ l, Follows round.strategy l round.final.strategy) ∧
      ∀ l, Follows round.strategy l round.final.strategy →
        let bug := round.outcome.bug.map (·.kind)
        let fresh := ((Recorder.empty.hearAll l).recordEnd bug).tree
        (k = 0 → round.summarized = some fresh) ∧
        ∀ j before, k = j + 1 → rounds[j]? = some before →
          (before.Prepares c → round.summarized = some fresh) ∧
          (¬before.Prepares c → ∃ tree, round.summarized = some tree ∧
            tree = ((before.leftover.hearAll l).recordEnd bug).tree ∧
            before.leftover.tree.Extends tree ∧
            tree.size + 1 = fresh.size + before.leftover.tree.size) := by
  intro rounds k round hround herror
  let first : Engine (Recorded σ) := .new c (.ofStrategy q)
  have hdialogues := exists_dialogue_allRounds hcalls first r
  obtain ⟨last, hchain⟩ := chain_allRounds harnesses first r
  have hsounds := hchain.sound Recorder.sound_empty hdialogues
  refine ⟨fun verdict s h => h.lastSummary herror,
    hdialogues round (List.mem_of_getElem? hround), fun l hl => ?_⟩
  intro bug fresh
  have hsummarized := Round.summarized_eq hl
  refine ⟨?_, fun j before hj hbefore => ⟨?_, ?_⟩⟩
  · rintro rfl
    rw [hsummarized, hchain.first hround]
    rfl
  · -- the round begins with no recording, as a new recorder does
    intro hprepares
    subst hj
    obtain ⟨verdict, hcloses⟩ := hchain.next hbefore hround
    rw [hsummarized, hcloses.recorder_of_prepares hprepares]
  · -- it begins with the recording of the round before
    intro hprepares
    subst hj
    obtain ⟨verdict, hcloses⟩ := hchain.next hbefore hround
    have hleft := hcloses.recorder_of_not_prepares hprepares
    have hsound : before.leftover.Sound := hleft ▸ hsounds round (List.mem_of_getElem? hround)
    rw [hleft] at hsummarized
    obtain ⟨hsteps, hwithheld⟩ := (before.leftover.hearAll l).same_recordEnd bug
    obtain ⟨hsteps', -⟩ := (Recorder.empty.hearAll l).same_recordEnd bug
    refine ⟨_, hsummarized, rfl, ?_, ?_⟩
    · exact (hsound.hearAll l).2.trans (.of_eq hsteps hwithheld)
    · -- the result of the run adds no step
      have hsize := hsound.size_hearAll Recorder.sound_empty l
      have hroot : Recorder.empty.tree.size = 1 := rfl
      rw [hroot] at hsize
      unfold EventTree.size at hsize ⊢
      rw [hsteps, hsteps']
      exact hsize

end Recorded

/-! ## A session after a bug -/

/-- The dialogue of a round in which a program is run. -/
theorem Program.follows_round {σ β : Type} [Strategy σ] (p : Program β) (e : Engine σ)
    (r : Array RunRecord) :
    Follows (e.round p.harness r).strategy (p.said (.new e.iterations e.config e.strategy))
      (e.round p.harness r).final.strategy := by
  have hrun := Machine.follows_run p Machine.stepLimit
    (.start p (.new e.iterations e.config e.strategy))
  rw [show (e.round p.harness r).final =
    (p.run (.new e.iterations e.config e.strategy)).scheduler.settled from rfl,
    Scheduler.strategy_settled]
  exact hrun

/-- A harness that sends itself a message and fails. -/
def failingSend : Program Nat where
  act
    | _, 0 => .send ⟨0⟩ "Tick" 0 1
    | _, _ => .fail "boom"
  main := 0

/-- An engine that is to run it once, whose strategy chooses the first operation. -/
def failingEngine : Engine (Recorded Scripted) :=
  .new {} (.ofStrategy {
    answers := []
    runs := []
    withheld := []
    fair := true
    maxSteps := 0
    endError := none
    refusals := ⟨"", "", ""⟩ })

/-- The engine after the session in which it finds the bug, and the records of the harness. -/
def failingOnce : Except EngineError Unit × Engine (Recorded Scripted) × Array RunRecord :=
  failingEngine.run failingSend.harness #[]

/-- The round of the next session. -/
def failingAgain : Round (Recorded Scripted) (Array RunRecord) :=
  failingOnce.2.1.round failingSend.harness failingOnce.2.2

theorem allRounds_failingEngine :
    failingEngine.allRounds [failingSend.harness, failingSend.harness] #[] =
      [failingEngine.round failingSend.harness #[], failingAgain] := by
  have hone : ∀ (e : Engine (Recorded Scripted)) (r : Array RunRecord),
      e.rounds failingSend.harness 1 r = [e.round failingSend.harness r] := by
    intro e r
    unfold Engine.rounds
    dsimp only
    congr 1
    split <;> rfl
  have hbudget : failingEngine.config.iterations = 1 := rfl
  have hagain : (failingEngine.run failingSend.harness #[]).2.1.config.iterations = 1 := by
    decide +kernel
  rw [Engine.allRounds_cons, Engine.allRounds_cons, hbudget, hagain, hone, hone]
  rfl

/-- The first session ends at the bug before it asks for another run, and its two steps come first
in the summary of the second. -/
theorem Engine.summaries_of_resumed_sessions_of_failingSend :
    let before := failingEngine.round failingSend.harness #[]
    ¬before.Prepares failingEngine.config ∧
      (∃ l, Follows before.strategy l before.final.strategy ∧ before.summarized =
        some ((Recorder.empty.hearAll l).recordEnd (before.outcome.bug.map (·.kind))).tree) ∧
      before.leftover.tree.size = 2 ∧
      ∃ tree, failingAgain.summarized = some tree ∧ before.leftover.tree.Extends tree := by
  intro before
  have hbug : before.outcome.bug ≠ none := by decide +kernel
  have hprepares : ¬before.Prepares failingEngine.config := by
    intro h
    rcases h.bug with hnone | hoff
    · exact hbug hnone
    · cases hoff
  have hcalls : ∀ harness ∈ [failingSend.harness (σ := Recorded Scripted), failingSend.harness],
      harness.OnlyCalls := by
    intro harness hharness
    rw [List.mem_pair, or_self] at hharness
    rw [hharness]
    exact failingSend.onlyCalls_harness
  have hrounds := Engine.summaries_of_resumed_sessions hcalls {} failingEngine.strategy.inner #[]
  have hplayed := allRounds_failingEngine
  have hengine : Engine.new {} (Recorded.ofStrategy failingEngine.strategy.inner) =
      failingEngine := rfl
  rw [hengine, hplayed] at hrounds
  obtain ⟨-, ⟨l, hl⟩, hfirst⟩ := hrounds 0 before rfl (by decide +kernel)
  obtain ⟨-, ⟨l', hl'⟩, hsecond⟩ := hrounds 1 failingAgain rfl (by decide +kernel)
  obtain ⟨tree, hsummarized, -, hextends, -⟩ := ((hsecond l' hl').2 0 before rfl rfl).2 hprepares
  exact ⟨hprepares, ⟨l, hl, (hfirst l hl).1 rfl⟩, by decide +kernel, tree, hsummarized, hextends⟩

/-- The second run makes one send again, and its summary has two. -/
theorem Engine.leftover_of_failingSend :
    failingEngine.allRounds [failingSend.harness, failingSend.harness] #[] =
        [failingEngine.round failingSend.harness #[], failingAgain] ∧
      failingAgain.outcome.error = none ∧
      ∃ l, Follows failingAgain.strategy l failingAgain.final.strategy ∧
        let fresh := ((Recorder.empty.hearAll l).recordEnd
          (failingAgain.outcome.bug.map (·.kind))).tree
        fresh.shape = [(.start, .harness, .harness), (.send, .harness, .harness)] ∧
        failingAgain.summarized.map EventTree.shape = some [(.start, .harness, .harness),
          (.send, .harness, .harness), (.send, .harness, .harness)] ∧
        failingAgain.summarized ≠ some fresh := by
  obtain ⟨l, hsaid⟩ : ∃ l, l = failingSend.said (.new failingOnce.2.1.iterations
      failingOnce.2.1.config failingOnce.2.1.strategy) := ⟨_, rfl⟩
  have hl : Follows failingAgain.strategy l failingAgain.final.strategy := by
    rw [hsaid, failingAgain]
    exact failingSend.follows_round failingOnce.2.1 failingOnce.2.2
  have hfresh : ((Recorder.empty.hearAll l).recordEnd
      (failingAgain.outcome.bug.map (·.kind))).tree.shape =
        [(.start, .harness, .harness), (.send, .harness, .harness)] := by
    rw [hsaid]
    decide +kernel
  have hshape : failingAgain.summarized.map EventTree.shape = some [(.start, .harness, .harness),
      (.send, .harness, .harness), (.send, .harness, .harness)] := by
    decide +kernel
  refine ⟨allRounds_failingEngine, by decide +kernel, l, hl, hfresh, hshape, fun hsame => ?_⟩
  rw [hsame, Option.map_some, hfresh] at hshape
  exact absurd hshape (by decide)

end Interleave
