import Interleave.Proofs.Scheduler.Verdict
import Interleave.Proofs.Strategy.Judicious

/-!
# Runs under judicious strategies

A scheduler ends a run with an error of its own making if the strategy names an operation that is
not enabled, and takes the choices to be exhausted if the strategy declines to decide. Under a
judicious strategy neither call can make the first happen, nor the second while some operation is
enabled (`Scheduler.upright_after`). The built-in strategies are judicious, so this holds of every
run under one of them (`BuiltIn.decides_legally`).
-/

namespace Interleave

namespace Scheduler

variable {σ : Type}

/-- If a run has ended meanwhile with an error, it is not that of a disabled operation, and if its
choices have been exhausted, no operation was enabled. -/
structure Upright (s s' : Scheduler σ) : Prop where
  error : s'.error = s.error ∨ ∃ e, s'.error = s.error.or (some e) ∧ ∀ id, e ≠ .notEnabled id
  explored : s'.fullyExplored = s.fullyExplored ∨ ∀ slot ∈ s.slots, slot.enabled = false

theorem upright_of_same {s s' : Scheduler σ} (herror : s'.error = s.error)
    (hexplored : s'.fullyExplored = s.fullyExplored) : s.Upright s' :=
  ⟨Or.inl herror, Or.inl hexplored⟩

/-- What is shown to the strategy as disabled is disabled: a declaration enables nothing. -/
theorem disabled_of_shown {s : Scheduler σ} {t : Token} {next : Declared}
    (h : AllDisabled (s.shown t next)) : ∀ slot ∈ s.slots, slot.enabled = false := by
  intro slot hslot
  have hshown : ((if slot.id = t.operation then slot.declare next else slot).snapshot) ∈
      s.shown t next :=
    List.mem_map_of_mem (List.mem_map_of_mem hslot)
  have hdisabled := h _ hshown
  split at hdisabled <;> exact hdisabled

/-- The scheduler checks for the operation that an admissible answer names. -/
theorem any_of_enabledIn {choices : List Snapshot} {id : OperationId} (h : EnabledIn choices id) :
    (choices.any fun op => op.id = id && op.enabled) = true := by
  obtain ⟨op, hop, hid, henabled⟩ := h
  exact List.any_eq_true.mpr ⟨op, hop, by simp [hid, henabled]⟩

variable [Strategy σ]

/-- A monitor may overheat, which is a bug but neither an error nor an end of the choices. -/
theorem dispatch_keeps (s : Scheduler σ) (current next : OperationId) :
    (s.dispatch current next).2.error = s.error ∧
      (s.dispatch current next).2.fullyExplored = s.fullyExplored := by
  let s₁ := { s with schedule := s.schedule.push (.schedule next) }
  have hheated := sameVerdict_heat s₁
  rcases dispatch_cases s current next with ⟨monitor, -, hend⟩ | hpass
  · rw [hend]
    exact ⟨hheated.error, hheated.fullyExplored⟩
  · rw [hpass]
    have hsame := hheated.trans (alike_handOver s₁.heat current next).sameVerdict
    exact ⟨hsame.error, hsame.fullyExplored⟩

theorem upright_resolve {s : Scheduler σ} {t : Token} {next : Declared}
    {answer : Answer OperationId}
    (h : Admissible (EnabledIn (s.shown t next)) (AllDisabled (s.shown t next)) answer) :
    s.Upright ((s.asked t next).2.resolve t.operation (s.shown t next) answer).2 := by
  cases h with
  | failed herror => exact ⟨Or.inr ⟨_, rfl, herror⟩, Or.inl rfl⟩
  | declined hdisabled =>
      -- the choices are exhausted, maybe with a bug, but without an error
      refine ⟨Or.inl ?_, Or.inr (disabled_of_shown hdisabled)⟩
      rcases exhaust_cases (s.asked t next).2 (s.shown t next) with
        ⟨names, -, hend⟩ | ⟨monitor, -, hend⟩ | hend
      all_goals
        rw [resolve, hend]
        rfl
  | decided henabled =>
      -- the check for the named operation, which makes the error, succeeds
      rw [resolve_of_legal (any_of_enabledIn henabled)]
      obtain ⟨herror, hexplored⟩ := dispatch_keeps (s.asked t next).2 t.operation _
      exact upright_of_same herror hexplored

theorem upright_settle {α : Type} {s : Scheduler σ} {answer : Answer α}
    (h : Admissible (fun _ => True) False answer) (q : σ) (t : Token) (toChoice : α → Choice)
    (toDecision : α → Decision) :
    s.Upright ({ s with strategy := q }.settle t toChoice toDecision answer).2 := by
  cases h with
  | failed herror => exact ⟨Or.inr ⟨_, rfl, herror⟩, Or.inl rfl⟩
  | declined hnever => exact hnever.elim
  | decided => exact upright_of_same rfl rfl

/-- A value out of range makes an error of its own. -/
theorem admissible_checkRange {max : UInt32} {answer : Answer UInt32}
    (h : Admissible (fun _ => True) False answer) :
    Admissible (fun _ => True) False (checkRange max answer) := by
  cases h with
  | decided =>
      rw [checkRange]
      split
      · exact .decided trivial
      · exact .failed fun id h => by cases h
  | declined hnever => exact hnever.elim
  | failed herror => exact .failed herror

/-- No call makes an error of a disabled operation, nor exhausts the choices while some operation is
enabled. -/
theorem upright_after (hσ : Strategy.Judicious σ) (s : Scheduler σ) (c : Call) :
    s.Upright (s.after c) := by
  have heffect := effect_after s c
  generalize s.after c = s' at heffect
  cases heffect with
  | notifies n =>
      have hsame := sameVerdict_notify s n
      exact upright_of_same hsame.error hsame.fullyExplored
  | keeps _ alike | stops _ alike | fails _ alike =>
      exact upright_of_same alike.error alike.fullyExplored
  | reports text => exact upright_of_same rfl rfl
  | resolves t kind targetKind target =>
      exact upright_resolve (hσ.operation s.strategy _ t.operation)
  | flips t max fairness => exact upright_settle (hσ.boolean s.strategy max) _ t _ _
  | rolls t max =>
      exact upright_settle (admissible_checkRange (hσ.integer s.strategy max)) _ t _ _

theorem error_ne_notEnabled (hσ : Strategy.Judicious σ) {s : Scheduler σ}
    (hs : ∀ id, s.error ≠ some (.notEnabled id)) (calls : List Call) (id : OperationId) :
    (s.afterAll calls).error ≠ some (.notEnabled id) := by
  induction calls generalizing s with
  | nil => exact hs id
  | cons c calls ih =>
      refine ih fun id => ?_
      rcases (upright_after hσ s c).error with hsame | ⟨e, herror, he⟩
      · rw [hsame]
        exact hs id
      · rw [herror]
        cases hfirst : s.error with
        | none => simpa using he id
        | some e' => simpa [hfirst] using hs id

end Scheduler

open Scheduler in
/-- In every state a built-in strategy names enabled operations only, names none only where none is
enabled, and always answers a request for a value with one or with an error; an integer that is not
read off a schedule is below its bound. So no run under it ends because a disabled operation was
named, and none is taken to be explored while an operation is enabled. -/
theorem BuiltIn.decides_legally {σ : Type} [Strategy σ] (h : BuiltIn σ) :
    (∀ (s : σ) (choices : List Snapshot) (current : OperationId),
      (∀ id, (Strategy.nextOperation s choices current).1 = .ok (some id) →
        ∃ op ∈ choices, op.id = id ∧ op.enabled = true) ∧
      ((Strategy.nextOperation s choices current).1 = .ok none →
        ∀ op ∈ choices, op.enabled = false)) ∧
    (∀ (s : σ) (max : UInt32), (Strategy.nextBoolean s max).1 ≠ .ok none ∧
      (Strategy.nextInteger s max).1 ≠ .ok none) ∧
    (∀ (s : σ) (max n : UInt32), DrawsIntegers s → (Strategy.nextInteger s max).1 = .ok (some n) →
      n.toNat < Nat.max 1 max.toNat) ∧
    ∀ (i : Nat) (config : Configuration) (q : σ) (calls : List Call),
      let s := (Scheduler.new i config q).afterAll calls
      (∀ id, s.error ≠ some (.notEnabled id)) ∧
      ∀ c, s.fullyExplored = false → (s.after c).fullyExplored = true →
        ∀ slot ∈ s.slots, slot.enabled = false := by
  have hσ := h.judicious
  refine ⟨fun s choices current => ⟨fun id hid => ?_, fun hnone => ?_⟩, fun s max => ⟨?_, ?_⟩,
    fun s max n hs hn => ?_, fun i config q calls => ⟨?_, fun c hlive hover => ?_⟩⟩
  · have hanswer := hσ.operation s choices current
    rw [hid] at hanswer
    exact hanswer.good_of_some
  · have hanswer := hσ.operation s choices current
    rw [hnone] at hanswer
    exact hanswer.dry_of_none
  · intro hnone
    have hanswer := hσ.boolean s max
    rw [hnone] at hanswer
    exact hanswer.dry_of_none
  · intro hnone
    have hanswer := hσ.integer s max
    rw [hnone] at hanswer
    exact hanswer.dry_of_none
  · have hanswer := hs.ranged max
    rw [hn] at hanswer
    exact toNat_lt_of_isInRange hanswer.good_of_some
  · refine error_ne_notEnabled hσ (fun id herror => ?_) calls
    have herror : none = some (StrategyError.notEnabled id) := herror
    cases herror
  · rcases (upright_after hσ _ c).explored with hsame | hdisabled
    · rw [hsame, hlive] at hover
      cases hover
    · exact hdisabled

/-- A recorded minimization of a schedule of one decision, behind which a random walk decides. -/
def recordedMinimization : Recorded (Minimization.Session RandomWalk) :=
  .ofStrategy (.ofSchedule #[.schedule ⟨1⟩] {} {} {} .always (some (RandomWalk.ofSeed 5 0)))

/-- The recorded minimization names the operation of the schedule, which is enabled, and the integer
behind the end of the schedule is in range. -/
theorem decides_legally_of_recordedMinimization :
    let op (id : UInt64) (enabled : Bool) : Snapshot :=
      ⟨⟨id⟩, "", enabled, false, false, .start ⟨id⟩, 0⟩
    let choices := [op 0 false, op 1 true]
    let asked := Strategy.nextOperation recordedMinimization choices ⟨0⟩
    BuiltIn (Recorded (Minimization.Session RandomWalk)) ∧ asked.1 = .ok (some ⟨1⟩) ∧
      (∃ s ∈ choices, s.id = ⟨1⟩ ∧ s.enabled = true) ∧ DrawsIntegers asked.2 ∧
      ∃ n, (Strategy.nextInteger asked.2 7).1 = .ok (some n) ∧ n.toNat < 7 := by
  intro op choices asked
  have hbuilt : BuiltIn (Recorded (Minimization.Session RandomWalk)) :=
    .recorded (.session .walk)
  obtain ⟨hoperation, -, hinteger, -⟩ := hbuilt.decides_legally
  have hanswer : asked.1 = .ok (some ⟨1⟩) := rfl
  have hdraws : DrawsIntegers asked.2 := by
    refine .recorded (.session ?_)
    rintro ⟨-, replay, hreplay, hlive⟩
    obtain rfl := Option.some.inj hreplay
    cases hlive
  have hdrawn : (Strategy.nextInteger asked.2 7).1 = .ok (some 1) := by decide +kernel
  exact ⟨hbuilt, hanswer, (hoperation recordedMinimization choices ⟨0⟩).1 ⟨1⟩ hanswer, hdraws, 1,
    hdrawn, hinteger asked.2 7 1 hdraws hdrawn⟩

end Interleave
