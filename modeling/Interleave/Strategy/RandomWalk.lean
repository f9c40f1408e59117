import Interleave.Configuration
import Interleave.KeyStream
import Interleave.Strategy.Basic

/-!
# Random exploration

A random walk draws among the enabled operations with a seeded generator. The generator goes on
across runs, so that each run of a session explores another interleaving and the whole session is
determined by the seed. Of a generator only its law is used, that a draw is below its bound;
`RandomWalk` is the walk that draws from a key stream.
-/

namespace Interleave

/-- The states `γ` are those of a seeded generator of numbers. What is drawn below a bound is below
it. -/
class Generator (γ : Type) where
  ofSeed : UInt64 → γ
  /-- A number of the given width below the given bound, and the state after the draw. -/
  below : Width → Nat → γ → Nat × γ
  below_lt (width : Width) {n : Nat} (hn : 0 < n) (g : γ) : (below width n g).1 < n

instance : Generator KeyStream where
  ofSeed := KeyStream.ofSeed
  below := KeyStream.below
  below_lt := KeyStream.below_lt

/-- The state of a walk that draws with the given generator. A bound of 0 means no bound. -/
structure Walk (γ : Type) where
  seed : UInt64
  stream : γ
  maxSteps : Nat
  steps : Nat
  deriving DecidableEq

namespace Walk

variable {γ : Type}

/-- The walk after a step that left its stream as given. -/
def advance (w : Walk γ) (stream : γ) : Walk γ :=
  { w with stream, steps := w.steps + 1 }

variable [Generator γ]

/-- A walk from the start of the seed's stream. -/
def ofSeed (seed : UInt64) (maxSteps : Nat) : Walk γ :=
  ⟨seed, Generator.ofSeed seed, maxSteps, 0⟩

/-- The walk with the configured seed and the bound for fair strategies. -/
def ofConfiguration (c : Configuration) : Walk γ :=
  ofSeed c.seed (c.stepBound true)

/-- An enabled operation, or none if none is enabled. Without one no step is counted. -/
def pick (w : Walk γ) (choices : List Snapshot) : Option OperationId × Walk γ :=
  let enabled := enabledIds choices
  if enabled.isEmpty then (none, w)
  else
    let (index, stream) := Generator.below .full enabled.length w.stream
    (enabled[index]?, w.advance stream)

/-- A Boolean that is `true` with the chance 1 in `max`, or 1 in 2 if `max` is less than 2. -/
def flip (w : Walk γ) (max : UInt32) : Bool × Walk γ :=
  let (value, stream) := Generator.below .half (Nat.max max.toNat 2) w.stream
  (value == 0, w.advance stream)

/-- An integer below `max`; 0 without a draw if `max` is 0. -/
def roll (w : Walk γ) (max : UInt32) : UInt32 × Walk γ :=
  if max = 0 then (0, w.advance w.stream)
  else
    let (value, stream) := Generator.below .half max.toNat w.stream
    (value.toUInt32, w.advance stream)

end Walk

instance {γ : Type} [Generator γ] : Strategy (Walk γ) where
  nextOperation w choices _ :=
    let (id, w) := w.pick choices
    (.ok id, w)
  nextBoolean w max :=
    let (b, w) := w.flip max
    (.ok (some b), w)
  nextInteger w max :=
    let (n, w) := w.roll max
    (.ok (some n), w)
  forceOperation w _ _ _ := (.ok (), w.advance w.stream)
  forceBoolean w _ _ := (.ok (), w.advance w.stream)
  forceInteger w _ _ := (.ok (), w.advance w.stream)
  prepare w := (.ok true, { w with steps := 0 })
  reset w := { w with steps := 0 }
  steps w := w.steps
  boundReached w := 0 < w.maxSteps && w.maxSteps ≤ w.steps
  isFair _ := true
  describe w := "Random[seed '" ++ Text.showNat w.seed.toNat ++ "']"

/-- The walk that draws from a key stream. -/
abbrev RandomWalk := Walk KeyStream

namespace RandomWalk

def ofSeed : UInt64 → Nat → RandomWalk :=
  Walk.ofSeed

def ofConfiguration : Configuration → RandomWalk :=
  Walk.ofConfiguration

end RandomWalk

end Interleave
