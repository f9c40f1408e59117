/-!
# Numerals

Decimal numerals of natural numbers, written without leading zeros and read with an optional plus
sign, and hexadecimal numerals of fixed width.
-/

namespace Interleave.Text

/-- The character of a digit below sixteen. -/
def digit (n : Nat) : Char :=
  if n < 10 then Char.ofNat (48 + n) else Char.ofNat (87 + n)

/-- The decimal numeral of `n`, without leading zeros. -/
def decimal (n : Nat) : List Char :=
  if n < 10 then [digit n] else decimal (n / 10) ++ [digit (n % 10)]
termination_by n
decreasing_by omega

/-- The decimal numeral of `n` as a string. -/
def showNat (n : Nat) : String :=
  String.ofList (decimal n)

/-- The last `width` digits of `n` in base sixteen, in lower case. -/
def hexadecimal : (width : Nat) → (n : Nat) → List Char
  | 0, _ => []
  | width + 1, n => hexadecimal width (n / 16) ++ [digit (n % 16)]

/-- The value of a decimal digit. -/
def digitValue? (c : Char) : Option Nat :=
  if 48 ≤ c.toNat ∧ c.toNat ≤ 57 then some (c.toNat - 48) else none

/-- The number that `value` followed by the given digits denotes. -/
def appendDigits? (value : Nat) : List Char → Option Nat
  | [] => some value
  | c :: cs => do appendDigits? (10 * value + (← digitValue? c)) cs

/-- The number that a nonempty run of decimal digits denotes; leading zeros are allowed. -/
def natural? : List Char → Option Nat
  | [] => none
  | c :: cs => appendDigits? 0 (c :: cs)

/-- A natural number below `bound`: an optional plus sign, then at least one decimal digit. -/
def unsigned? (bound : Nat) (cs : List Char) : Option Nat :=
  let digits := match cs with
    | '+' :: rest => rest
    | _ => cs
  (natural? digits).filter (· < bound)

/-- Spaces on the left up to the given number of characters. -/
def padLeft (width : Nat) (s : String) : String :=
  String.ofList (List.replicate (width - s.length) ' ') ++ s

/-- Spaces on the right up to the given number of characters. -/
def padRight (width : Nat) (s : String) : String :=
  s ++ String.ofList (List.replicate (width - s.length) ' ')

end Interleave.Text
