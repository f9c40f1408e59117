/-!
# Blank characters, trimming and lines

The characters with the Unicode property White_Space, and the two operations that the dump format
builds on them: `trim` drops blanks at both ends, `lines` splits a text at line feeds.
-/

namespace Interleave.Text

/-- The 25 characters with the Unicode property White_Space. -/
def isBlank (c : Char) : Bool :=
  let n := c.toNat
  (9 ≤ n && n ≤ 13) || n == 0x20 || n == 0x85 || n == 0xA0 || n == 0x1680 ||
    (0x2000 ≤ n && n ≤ 0x200A) || n == 0x2028 || n == 0x2029 || n == 0x202F || n == 0x205F ||
    n == 0x3000

/-- The text without the blanks at its end. -/
def trimEnd (cs : List Char) : List Char :=
  (cs.reverse.dropWhile isBlank).reverse

/-- The text without the blanks at its two ends. -/
def trim (cs : List Char) : List Char :=
  trimEnd (cs.dropWhile isBlank)

/-- The lines of a text, without their line feeds. A line feed at the very end starts no further
line. A carriage return before a line feed stays: it is blank, so trimming takes it away. -/
def lines : List Char → List (List Char)
  | [] => []
  | c :: cs =>
    if c = '\n' then [] :: lines cs
    else match lines cs with
      | [] => [[c]]
      | l :: ls => (c :: l) :: ls

/-- The text before the first occurrence of `c` and the text after it. -/
def splitFirst? (c : Char) : List Char → Option (List Char × List Char)
  | [] => none
  | x :: xs =>
    if x = c then some ([], xs)
    else (splitFirst? c xs).map fun (l, r) => (x :: l, r)

/-- The text before the last occurrence of `c` and the text after it. -/
def splitLast? (c : Char) : List Char → Option (List Char × List Char)
  | [] => none
  | x :: xs =>
    match splitLast? c xs with
    | some (l, r) => some (x :: l, r)
    | none => if x = c then some ([], xs) else none

/-- The rest of the text after the given start, if the text starts with it. -/
def dropStart? : List Char → List Char → Option (List Char)
  | [], cs => some cs
  | _ :: _, [] => none
  | p :: ps, c :: cs => if p = c then dropStart? ps cs else none

end Interleave.Text
