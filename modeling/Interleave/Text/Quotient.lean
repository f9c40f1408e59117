import Interleave.Text.Numeral

/-!
# Quotients with a fixed number of decimal places

An average is the double-precision quotient of two counts, shown with a fixed number of places. All
of it is exact arithmetic on naturals: `Binary.nearest` rounds a ratio to 53 significant bits, and
`Binary.fixed` rounds the resulting binary fraction to decimal places; both send a tie to the even
neighbour.
-/

namespace Interleave.Text

/-- The integer nearest to `num / den`; a tie goes to the even neighbour. -/
def roundDiv (num den : Nat) : Nat :=
  let q := num / den
  let r := num % den
  if 2 * r < den then q
  else if den < 2 * r then q + 1
  else if q % 2 = 0 then q else q + 1

/-- The number `mantissa * 2 ^ exponent`. -/
structure Binary where
  mantissa : Nat
  exponent : Int

namespace Binary

/-- `num / den` rounded to 53 significant bits. -/
def nearest (num den : Nat) : Binary :=
  if num = 0 then ⟨0, 0⟩
  else
    let scaled (e : Int) : Nat × Nat := (num <<< (-e).toNat, den <<< e.toNat)
    let guess : Int := (Nat.log2 num : Int) - Nat.log2 den - 52
    let exponent := if (scaled guess).1 < (scaled guess).2 <<< 52 then guess - 1 else guess
    ⟨roundDiv (scaled exponent).1 (scaled exponent).2, exponent⟩

/-- The quotient of two numbers, rounded to 53 significant bits. -/
def div (a b : Binary) : Binary :=
  let shift := a.exponent - b.exponent
  nearest (a.mantissa <<< shift.toNat) (b.mantissa <<< (-shift).toNat)

/-- The number rounded to the given number of decimal places. -/
def fixed (places : Nat) (x : Binary) : String :=
  let unit := Nat.pow 10 places
  let scaled := roundDiv ((x.mantissa * unit) <<< x.exponent.toNat) (1 <<< (-x.exponent).toNat)
  let fraction := decimal (scaled % unit)
  let zeros := List.replicate (places - fraction.length) '0'
  showNat (scaled / unit) ++ "." ++ String.ofList (zeros ++ fraction)

end Binary

/-- The quotient of two counts in double precision. -/
def quotient (total count : Nat) : Binary :=
  (Binary.nearest total 1).div (Binary.nearest count 1)

end Interleave.Text
