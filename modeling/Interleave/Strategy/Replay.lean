import Interleave.Strategy.Basic

/-!
# Replay of a schedule

A replay hands out the decisions of a recorded schedule one by one. A request that does not fit the
next decision is a mismatch and ends the session. After the last decision an optional suffix
strategy takes over for the rest of the run; without one only the end of the run may follow.
-/

namespace Interleave

/-- The state of a replay with a suffix strategy of states `τ`. -/
structure Replay (τ : Type) where
  schedule : Schedule
  /-- Index of the next decision. -/
  position : Nat
  /-- Whether the recorded run was fair. -/
  fair : Bool
  suffix : Option τ
  /-- Whether the suffix has taken over. -/
  handedOver : Bool

namespace Replay

variable {τ : Type}

/-- A replay from the first decision. -/
def ofSchedule (schedule : Schedule) (fair : Bool) (suffix : Option τ) : Replay τ :=
  ⟨schedule, 0, fair, suffix, false⟩

/-- Whether all decisions have been handed out. -/
def isCompleted (r : Replay τ) : Bool :=
  r.handedOver || r.schedule.size ≤ r.position

/-- What a request meets: the next decision, the suffix with a way to put its state back, the end of
the run, or nothing more to hand out. -/
inductive Next (τ : Type) where
  | decision (d : Decision)
  | suffix (s : τ)
  | ended
  | exhausted

/-- What the next request meets. It is the end of the run if that is expected here. -/
def next (r : Replay τ) (endExpected : Bool) : Next τ × Replay τ :=
  if h : !r.handedOver ∧ r.position < r.schedule.size then
    (.decision r.schedule[r.position], { r with position := r.position + 1 })
  else match r.suffix with
    | some s => (.suffix s, { r with handedOver := true })
    | none => (if !r.handedOver && endExpected then .ended else .exhausted, r)

/-- The error for a decision handed out last that does not fit. -/
def mismatch (r : Replay τ) (cause : Mismatch) : StrategyError :=
  .mismatch (r.position - 1) cause

/-- The error for a request after the last decision. -/
def exhausted (r : Replay τ) : StrategyError :=
  .exhausted r.schedule.size

/-- The replay with the given state of its suffix. -/
def withSuffix (r : Replay τ) (s : τ) : Replay τ :=
  { r with suffix := some s }

/-- Answer a request from the next decision, or else from the suffix. -/
def answer {α : Type} (r : Replay τ) (endExpected : Bool) (read : Decision → Except Mismatch α)
    (atEnd : Except StrategyError α) (fromSuffix : τ → Except StrategyError α × τ) :
    Except StrategyError α × Replay τ :=
  match r.next endExpected with
  | (.decision d, r) => ((read d).mapError r.mismatch, r)
  | (.suffix s, r) =>
    let (a, s) := fromSuffix s
    (a, r.withSuffix s)
  | (.ended, r) => (atEnd, r)
  | (.exhausted, r) => (.error r.exhausted, r)

/-- A decision read as an operation that must be enabled. -/
def readOperation (choices : List Snapshot) : Decision → Except Mismatch (Option OperationId)
  | .schedule id =>
    match choices.find? (·.id = id) with
    | some op => if op.enabled then .ok (some id) else .error (.notEnabled id)
    | none => .error (.unknownOperation id)
  | d => .error (.expectedScheduling d)

/-- A decision read as a Boolean. -/
def readBoolean : Decision → Except Mismatch (Option Bool)
  | .boolean b => .ok (some b)
  | .fairBoolean _ b => .ok (some b)
  | d => .error (.expectedBoolean d)

/-- A decision read as an integer. -/
def readInteger : Decision → Except Mismatch (Option UInt32)
  | .integer n => .ok (some n)
  | d => .error (.expectedInteger d)

/-- A decision that must be the given operation. -/
def demandOperation (id : OperationId) (d : Decision) : Except Mismatch Unit :=
  if d = .schedule id then .ok () else .error (.forcedOperation id d)

/-- A decision that must be the given Boolean. -/
def demandBoolean (b : Bool) : Decision → Except Mismatch Unit
  | .boolean v => if v = b then .ok () else .error (.forcedBoolean b (.boolean v))
  | .fairBoolean fairness v =>
    if v = b then .ok () else .error (.forcedBoolean b (.fairBoolean fairness v))
  | d => .error (.forcedBoolean b d)

/-- A decision that must be the given integer. -/
def demandInteger (n : UInt32) (d : Decision) : Except Mismatch Unit :=
  if d = .integer n then .ok () else .error (.forcedInteger n d)

/-- The replay from the first decision again, with the given suffix. -/
def rewind (r : Replay τ) (suffix : Option τ) : Replay τ :=
  { r with position := 0, suffix, handedOver := false }

end Replay

instance {τ : Type} [Strategy τ] : Strategy (Replay τ) where
  nextOperation r choices current :=
    r.answer (!choices.any (·.enabled)) (Replay.readOperation choices) (.ok none)
      fun s => Strategy.nextOperation s choices current
  nextBoolean r max :=
    r.answer false Replay.readBoolean (.ok none) fun s => Strategy.nextBoolean s max
  nextInteger r max :=
    r.answer false Replay.readInteger (.ok none) fun s => Strategy.nextInteger s max
  forceOperation r id choices current :=
    r.answer false (Replay.demandOperation id) (.ok ())
      fun s => Strategy.forceOperation s id choices current
  forceBoolean r max b :=
    r.answer false (Replay.demandBoolean b) (.ok ()) fun s => Strategy.forceBoolean s max b
  forceInteger r max n :=
    r.answer false (Replay.demandInteger n) (.ok ()) fun s => Strategy.forceInteger s max n
  prepare r :=
    match r.suffix with
    | some s =>
      let (more, s) := Strategy.prepare s
      (more, r.rewind (some s))
    | none => (.ok false, r.rewind none)
  reset r := r.rewind (r.suffix.map Strategy.reset)
  steps r := r.position + (if r.handedOver then (r.suffix.map Strategy.steps).getD 0 else 0)
  boundReached r := r.handedOver && (r.suffix.map Strategy.boundReached).getD false
  isFair r := r.fair
  describe r :=
    match r.suffix with
    | some s => "Replay(" ++ Strategy.describe s ++ ")"
    | none => "Replay"

end Interleave
