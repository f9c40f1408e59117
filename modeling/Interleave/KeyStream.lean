/-!
# A seeded stream of words

The ChaCha stream with four double rounds, keyed from a 64-bit seed: an infinite sequence of 32-bit
words, of which `KeyStream` holds the key and the position reached. `KeyStream.below` draws
uniformly from a range by multiplication and rejection, and so stays below its bound
(`KeyStream.below_lt`).
-/

namespace Interleave

/-- The key of a stream: eight words. -/
abbrev StreamKey := Vector UInt32 8

/-- The sixteen words that the rounds mix. -/
abbrev Block := Vector UInt32 16

namespace Block

/-- Rotation to the left by fewer than 32 places. -/
def rotl (w n : UInt32) : UInt32 :=
  (w <<< n) ||| (w >>> (32 - n))

/-- Add one word to another, then mix the sum into a third and rotate that. -/
def mix (a b d : Fin 16) (n : UInt32) (s : Block) : Block :=
  let s := s.set a (s[a] + s[b])
  s.set d (rotl (s[d] ^^^ s[a]) n)

/-- The quarter round on four of the words. -/
def quarterRound (a b c d : Fin 16) (s : Block) : Block :=
  ((((s.mix a b d 16).mix c d b 12).mix a b d 8).mix c d b 7)

/-- A round down the columns and a round along the diagonals. -/
def doubleRound (s : Block) : Block :=
  let s := s.quarterRound 0 4 8 12 |>.quarterRound 1 5 9 13 |>.quarterRound 2 6 10 14
    |>.quarterRound 3 7 11 15
  (((s.quarterRound 0 5 10 15).quarterRound 1 6 11 12).quarterRound 2 7 8 13).quarterRound 3 4 9 14

/-- The block before mixing: four constants, the key, the block number and two zeros. -/
def initial (key : StreamKey) (number : UInt64) : Block :=
  #v[0x61707865, 0x3320646e, 0x79622d32, 0x6b206574,
    key[0], key[1], key[2], key[3], key[4], key[5], key[6], key[7],
    number.toUInt32, (number >>> 32).toUInt32, 0, 0]

/-- The block of the given number. -/
def generate (key : StreamKey) (number : UInt64) : Block :=
  let start := initial key number
  Vector.zipWith (· + ·) start.doubleRound.doubleRound.doubleRound.doubleRound start

end Block

/-- The width of a draw. -/
inductive Width where
  | half
  | full
  deriving DecidableEq

/-- The number of bits of a draw. -/
def Width.bits : Width → Nat
  | .half => 32
  | .full => 64

/-- The number of values of a draw. -/
def Width.size : Width → Nat
  | .half => UInt32.size
  | .full => UInt64.size

/-- A stream and the number of words taken from it. -/
structure KeyStream where
  key : StreamKey
  position : Nat
  deriving DecidableEq

namespace KeyStream

/-- One step of the generator that stretches a seed into a key. -/
def stretch (state : UInt64) : UInt64 :=
  state * 6364136223846793005 + 11634580027462260723

/-- The key word of a stretching state: xor, shift and a rotation by the top five bits. -/
def keyWord (state : UInt64) : UInt32 :=
  let x := (((state >>> 18) ^^^ state) >>> 27).toUInt32
  let n := (state >>> 59).toUInt32
  (x >>> n) ||| (x <<< (32 - n))

/-- The successive stretching states of a seed. -/
def states (seed : UInt64) : Nat → UInt64
  | 0 => stretch seed
  | i + 1 => stretch (states seed i)

/-- The stream of a seed, from its start. -/
def ofSeed (seed : UInt64) : KeyStream :=
  ⟨.ofFn fun i => keyWord (states seed i), 0⟩

/-- The word at the given place of the stream. -/
def wordAt (s : KeyStream) (place : Nat) : UInt32 :=
  (Block.generate s.key (place / 16).toUInt64).get ⟨place % 16, Nat.mod_lt _ (by decide)⟩

/-- The next 32 bits as a number. -/
def draw32 (s : KeyStream) : Nat × KeyStream :=
  ((s.wordAt s.position).toNat, { s with position := s.position + 1 })

/-- The next 64 bits as a number: two words, the low one first. -/
def draw64 (s : KeyStream) : Nat × KeyStream :=
  ((s.wordAt s.position).toNat + UInt32.size * (s.wordAt (s.position + 1)).toNat,
    { s with position := s.position + 2 })

/-- The next bits of the given width as a number. -/
def draw : Width → KeyStream → Nat × KeyStream
  | .half, s => s.draw32
  | .full, s => s.draw64

/-- The largest low part of a product that is accepted: one less than the largest multiple of `n` by
a power of two that fits the width. -/
def zone (w : Width) (n : Nat) : Nat :=
  (n <<< (w.bits - 1 - Nat.log2 n)) - 1

/-- A number below `n` with at most the given number of draws, and 0 should they all be rejected.
Each draw is accepted with a chance of at least one half. -/
def belowWithin (w : Width) (n : Nat) : Nat → KeyStream → Nat × KeyStream
  | 0, s => (0, s)
  | attempts + 1, s =>
    let (v, s) := s.draw w
    if v * n % w.size ≤ zone w n then (v * n / w.size, s)
    else belowWithin w n attempts s

/-- A number below `n`, drawn uniformly. -/
def below (w : Width) (n : Nat) (s : KeyStream) : Nat × KeyStream :=
  belowWithin w n UInt16.size s

theorem draw_lt (w : Width) (s : KeyStream) : (s.draw w).1 < w.size := by
  cases w with
  | half => exact (s.wordAt s.position).toNat_lt
  | full =>
      have hlow := (s.wordAt s.position).toNat_lt
      have hhigh := (s.wordAt (s.position + 1)).toNat_lt
      show _ + UInt32.size * _ < UInt64.size
      unfold UInt32.size UInt64.size
      omega

theorem belowWithin_lt (w : Width) {n : Nat} (hn : 0 < n) (attempts : Nat) (s : KeyStream) :
    (belowWithin w n attempts s).1 < n := by
  induction attempts generalizing s with
  | zero => exact hn
  | succ attempts ih =>
      unfold belowWithin
      dsimp only
      split
      · -- the high part of a product with `n`
        refine Nat.div_lt_of_lt_mul ?_
        exact Nat.mul_lt_mul_of_pos_right (draw_lt w s) hn
      · exact ih _

theorem below_lt (w : Width) {n : Nat} (hn : 0 < n) (s : KeyStream) : (s.below w n).1 < n :=
  belowWithin_lt w hn _ s

end KeyStream

end Interleave
