import Interleave.Json.Basic
import Interleave.Text.Numeral

/-!
# Reading JSON

A recursive-descent reader of the JSON grammar. It is strict: no byte order mark, no text after the
value, no raw control character in a string, no leading zero or plus sign. `parse` hides the bound
on the recursion, which is computed from the length of the text and never reached.
-/

namespace Interleave.Json

/-- The four blanks of JSON. -/
def isSpace (c : Char) : Bool :=
  c == ' ' || c == '\n' || c == '\t' || c == '\r'

/-- The text after its leading blanks. -/
def skip (cs : List Char) : List Char :=
  cs.dropWhile isSpace

/-- The value of a hexadecimal digit. -/
def hexValue? (c : Char) : Option Nat :=
  let n := c.toNat
  if 48 ≤ n ∧ n ≤ 57 then some (n - 48)
  else if 97 ≤ n ∧ n ≤ 102 then some (n - 87)
  else if 65 ≤ n ∧ n ≤ 70 then some (n - 55)
  else none

/-- The 16-bit unit that four hexadecimal digits denote. -/
def unit? (a b c d : Char) : Option Nat := do
  return 4096 * (← hexValue? a) + 256 * (← hexValue? b) + 16 * (← hexValue? c) + (← hexValue? d)

/-- A string literal read in part: the characters so far in reverse, a high surrogate that waits for
its partner, and whether all units so far were paired. -/
structure PartialText where
  chars : List Char
  high : Option Nat
  paired : Bool

namespace PartialText

/-- Nothing read yet. -/
def empty : PartialText := ⟨[], none, true⟩

/-- One more character. -/
def push (t : PartialText) (c : Char) : PartialText :=
  ⟨c :: t.chars, none, t.paired && t.high.isNone⟩

/-- One more escaped 16-bit unit. -/
def pushUnit (t : PartialText) (n : Nat) : PartialText :=
  if 0xD800 ≤ n ∧ n < 0xDC00 then ⟨t.chars, some n, t.paired && t.high.isNone⟩
  else if 0xDC00 ≤ n ∧ n < 0xE000 then
    match t.high with
    | some h =>
      ⟨Char.ofNat (0x10000 + 1024 * (h - 0xD800) + (n - 0xDC00)) :: t.chars, none, t.paired⟩
    | none => ⟨t.chars, none, false⟩
  else t.push (Char.ofNat n)

/-- The text of the finished literal, if all its units were paired. -/
def finish (t : PartialText) : Option String :=
  if t.paired && t.high.isNone then some (String.ofList t.chars.reverse) else none

end PartialText

/-- The character that a one-letter escape denotes. -/
def escaped? : Char → Option Char
  | '"' => some '"'
  | '\\' => some '\\'
  | '/' => some '/'
  | 'b' => some '\x08'
  | 'f' => some '\x0c'
  | 'n' => some '\n'
  | 'r' => some '\r'
  | 't' => some '\t'
  | _ => none

/-- The rest of a string literal after its opening quote. -/
def stringBody (t : PartialText) : List Char → Option (Option String × List Char)
  | [] => none
  | '"' :: rest => some (t.finish, rest)
  | '\\' :: 'u' :: a :: b :: c :: d :: rest => do stringBody (t.pushUnit (← unit? a b c d)) rest
  | '\\' :: c :: rest => do stringBody (t.push (← escaped? c)) rest
  | c :: rest => if c = '\\' ∨ c.toNat < 32 then none else stringBody (t.push c) rest

/-- The longest run of decimal digits at the start, and the rest. -/
def digits (cs : List Char) : List Char × List Char :=
  (cs.takeWhile fun c => (Text.digitValue? c).isSome,
    cs.dropWhile fun c => (Text.digitValue? c).isSome)

/-- An optional fraction: a point and at least one digit. -/
def fraction? : List Char → Option (List Char × List Char)
  | '.' :: rest =>
    match digits rest with
    | ([], _) => none
    | (ds, rest) => some ('.' :: ds, rest)
  | cs => some ([], cs)

/-- An optional exponent: a letter, an optional sign and at least one digit. -/
def exponent? : List Char → Option (List Char × List Char)
  | c :: rest =>
    if c = 'e' ∨ c = 'E' then
      let (sign, rest) := match rest with
        | '+' :: rest => (['+'], rest)
        | '-' :: rest => (['-'], rest)
        | rest => ([], rest)
      match digits rest with
      | ([], _) => none
      | (ds, rest) => some (c :: sign ++ ds, rest)
    else some ([], c :: rest)
  | [] => some ([], [])

/-- A number literal. Plain digits make a natural number, anything else keeps its text. -/
def number? (cs : List Char) : Option (Json × List Char) := do
  let (sign, cs) := match cs with
    | '-' :: rest => (['-'], rest)
    | cs => ([], cs)
  let (whole, cs) ← match cs with
    | '0' :: rest => some (['0'], rest)
    | cs => match digits cs with
      | ([], _) => none
      | (ds, rest) => some (ds, rest)
  let (part, cs) ← fraction? cs
  let (power, cs) ← exponent? cs
  if sign = [] ∧ part = [] ∧ power = [] then
    return (.natural (← Text.natural? whole), cs)
  return (.literal (String.ofList (sign ++ whole ++ part ++ power)), cs)

mutual

/-- A value, with blanks before it. -/
def value? : Nat → List Char → Option (Json × List Char)
  | 0, _ => none
  | fuel + 1, cs =>
    match skip cs with
    | 'n' :: 'u' :: 'l' :: 'l' :: rest => some (.null, rest)
    | 't' :: 'r' :: 'u' :: 'e' :: rest => some (.bool true, rest)
    | 'f' :: 'a' :: 'l' :: 's' :: 'e' :: rest => some (.bool false, rest)
    | '"' :: rest => do
      let (s, rest) ← stringBody .empty rest
      return (s.elim .unpaired .text, rest)
    | '[' :: rest =>
      match skip rest with
      | ']' :: rest => some (.array [], rest)
      | rest => do
        let (items, rest) ← items? fuel rest
        return (.array items, rest)
    | '\x7b' :: rest =>
      match skip rest with
      | '\x7d' :: rest => some (.object [], rest)
      | rest => do
        let (fields, rest) ← fields? fuel rest
        return (.object fields, rest)
    | rest => number? rest

/-- The items of a nonempty array and its closing bracket. -/
def items? : Nat → List Char → Option (List Json × List Char)
  | 0, _ => none
  | fuel + 1, cs => do
    let (j, rest) ← value? fuel cs
    match skip rest with
    | ',' :: rest =>
      let (js, rest) ← items? fuel rest
      return (j :: js, rest)
    | ']' :: rest => return ([j], rest)
    | _ => none

/-- The fields of a nonempty object and its closing bracket. -/
def fields? : Nat → List Char → Option (List (Option String × Json) × List Char)
  | 0, _ => none
  | fuel + 1, cs =>
    match skip cs with
    | '"' :: rest => do
      let (name, rest) ← stringBody .empty rest
      match skip rest with
      | ':' :: rest =>
        let (j, rest) ← value? fuel rest
        match skip rest with
        | ',' :: rest =>
          let (fs, rest) ← fields? fuel rest
          return ((name, j) :: fs, rest)
        | '\x7d' :: rest => return ([(name, j)], rest)
        | _ => none
      | _ => none
    | _ => none

end

/-- The value that the whole text denotes. Each character costs at most two levels of recursion. -/
def parse? (text : String) : Option Json :=
  let cs := text.toList
  match value? (2 * cs.length + 2) cs with
  | some (j, rest) => if skip rest = [] then some j else none
  | none => none

end Interleave.Json
