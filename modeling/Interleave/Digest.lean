/-!
# Payload digests

A payload is compared across runs by a 64-bit digest of its bytes: SipHash with one round per word,
three closing rounds and the zero key. Words are little endian; a text is its UTF-8 bytes and one
byte 255, a list its length and its items, a pair its parts in order.
-/

namespace Interleave

/-- What a digest is taken of. -/
inductive Payload where
  | text (value : String)
  | flag (value : Bool)
  | word (value : UInt64)
  | halfWord (value : UInt32)
  | integer (value : Int64)
  | words (values : List UInt64)
  | pair (first : UInt64) (second : String)

namespace Digest

/-- The `count` low bytes of a word, lowest first. -/
def littleEndian : (count : Nat) → UInt64 → List UInt8
  | 0, _ => []
  | count + 1, w => w.toUInt8 :: littleEndian count (w >>> 8)

/-- The bytes of a text. -/
def textBytes (s : String) : List UInt8 :=
  s.toUTF8.toList ++ [255]

/-- The bytes of a payload. -/
def bytes : Payload → List UInt8
  | .text s => textBytes s
  | .flag b => [if b then 1 else 0]
  | .word w => littleEndian 8 w
  | .halfWord w => littleEndian 4 w.toUInt64
  | .integer i => littleEndian 8 i.toUInt64
  | .words ws => littleEndian 8 ws.length.toUInt64 ++ ws.flatMap (littleEndian 8)
  | .pair w s => littleEndian 8 w ++ textBytes s

/-- The four words of the mixing state. -/
structure Lanes where
  v0 : UInt64
  v1 : UInt64
  v2 : UInt64
  v3 : UInt64

/-- Rotation to the left by fewer than 64 places. -/
def rotl (w : UInt64) (n : UInt64) : UInt64 :=
  (w <<< n) ||| (w >>> (64 - n))

namespace Lanes

/-- The state before any input, for the zero key. -/
def start : Lanes :=
  ⟨0x736f6d6570736575, 0x646f72616e646f6d, 0x6c7967656e657261, 0x7465646279746573⟩

/-- One mixing round. -/
def round (s : Lanes) : Lanes :=
  let v0 := s.v0 + s.v1
  let v1 := rotl s.v1 13 ^^^ v0
  let v0 := rotl v0 32
  let v2 := s.v2 + s.v3
  let v3 := rotl s.v3 16 ^^^ v2
  let v0 := v0 + v3
  let v3 := rotl v3 21 ^^^ v0
  let v2 := v2 + v1
  let v1 := rotl v1 17 ^^^ v2
  let v2 := rotl v2 32
  ⟨v0, v1, v2, v3⟩

/-- One word of input: a round between two exclusive ors. -/
def absorb (s : Lanes) (w : UInt64) : Lanes :=
  let s := round { s with v3 := s.v3 ^^^ w }
  { s with v0 := s.v0 ^^^ w }

/-- The digest of the finished input. -/
def close (s : Lanes) : UInt64 :=
  let s := round (round (round { s with v2 := s.v2 ^^^ 0xff }))
  s.v0 ^^^ s.v1 ^^^ s.v2 ^^^ s.v3

end Lanes

/-- The word that at most eight bytes denote, lowest first. -/
def wordOf (bs : List UInt8) : UInt64 :=
  bs.foldr (fun b w => (w <<< 8) ||| b.toUInt64) 0

/-- The state after all input. The last word holds the bytes that remain and, on top, the length. -/
def absorbAll (length : Nat) : Lanes → List UInt8 → Lanes
  | s, b0 :: b1 :: b2 :: b3 :: b4 :: b5 :: b6 :: b7 :: rest =>
    absorbAll length (s.absorb (wordOf [b0, b1, b2, b3, b4, b5, b6, b7])) rest
  | s, rest => s.absorb (wordOf rest ||| (length.toUInt64 <<< 56))

/-- The digest of a payload. -/
def ofPayload (p : Payload) : UInt64 :=
  let bs := bytes p
  (absorbAll bs.length .start bs).close

end Digest

end Interleave
