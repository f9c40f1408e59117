import Interleave.Strategy.Basic

/-!
# Scripted strategies

A strategy that gives prepared answers, of any kind and in the given order, so that what the rest of
the library makes of them can be tested: illegal decisions, errors and early ends among them. Behind
the last answer it decides for the first enabled operation, for `false` and for 0.
-/

namespace Interleave

/-- A prepared answer. -/
inductive Prepared where
  /-- No decision. -/
  | nothing
  | fail (text : String)
  /-- An operation or an integer. -/
  | number (value : Nat)
  | flag (value : Bool)
  deriving DecidableEq

/-- What a scripted strategy says it does not support when a decision is forced on it. -/
structure Refusals where
  operation : String
  boolean : String
  integer : String
  deriving DecidableEq

/-- The state of a scripted strategy. -/
structure Scripted where
  /-- The answers to come. -/
  answers : List Prepared
  /-- The answers to come where a run is prepared: whether there is one. -/
  runs : List Prepared
  /-- Names of the events whose sends are withheld. -/
  withheld : List String
  fair : Bool
  /-- Step bound, or 0 for none. -/
  maxSteps : Nat
  /-- The error with which every run ends. -/
  endError : Option String
  refusals : Refusals
  steps : Nat := 0
  deriving DecidableEq

namespace Scripted

/-- The next answer, of the type that `read` gives; one of another type is an error. -/
def answer {α : Type} (s : Scripted) (otherwise : Option α) (read : Prepared → Option α) :
    Answer α × Scripted :=
  let s := { s with steps := s.steps + 1 }
  match s.answers with
  | [] => (.ok otherwise, s)
  | prepared :: rest =>
    let s := { s with answers := rest }
    match prepared with
    | .nothing => (.ok none, s)
    | .fail text => (.error (.other text), s)
    | prepared =>
      match read prepared with
      | some value => (.ok (some value), s)
      | none => (.error (.other "scripted answer has the wrong type"), s)

/-- A prepared operation. -/
def toOperation? : Prepared → Option OperationId
  | .number n => some ⟨n.toUInt64⟩
  | _ => none

/-- A prepared Boolean. -/
def toBoolean? : Prepared → Option Bool
  | .flag b => some b
  | _ => none

/-- A prepared integer of 32 bits. -/
def toInteger? : Prepared → Option UInt32
  | .number n => if n < UInt32.size then some n.toUInt32 else none
  | _ => none

/-- Start a run, if the next answer for it says so. -/
def prepare (s : Scripted) : Except StrategyError Bool × Scripted :=
  let s := { s with steps := 0 }
  match s.runs with
  | [] => (.ok true, s)
  | .fail text :: rest => (.error (.other text), { s with runs := rest })
  | prepared :: rest => (.ok (prepared = .flag true), { s with runs := rest })

end Scripted

instance : Strategy Scripted where
  nextOperation s choices _ :=
    s.answer ((choices.find? (·.enabled)).map (·.id)) Scripted.toOperation?
  nextBoolean s _ := s.answer (some false) Scripted.toBoolean?
  nextInteger s _ := s.answer (some 0) Scripted.toInteger?
  forceOperation s _ _ _ := (.error (.unsupported s.refusals.operation), s)
  forceBoolean s _ _ := (.error (.unsupported s.refusals.boolean), s)
  forceInteger s _ _ := (.error (.unsupported s.refusals.integer), s)
  prepare := Scripted.prepare
  reset s := { s with steps := 0 }
  steps s := s.steps
  boundReached s := 0 < s.maxSteps && s.maxSteps ≤ s.steps
  isFair s := s.fair
  describe _ := "Scripted"
  onSend s _ _ event := (if s.withheld.contains event.name then .withhold else .deliver, s)
  onEnd s _ := match s.endError with
    | some text => (.error (.other text), s)
    | none => (.ok (), s)

end Interleave
