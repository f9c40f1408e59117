import Interleave.Json.Basic
import Interleave.Text.Numeral

/-!
# Writing JSON

Two layouts: `compact` writes no blanks, `pretty` puts every item and field on a line of its own,
indented by two spaces a level, and writes an empty array or object as its two brackets. Strings
escape the quote, the backslash and the control characters below the space, nothing else.
-/

namespace Interleave.Json

/-- The written form of one character of a string. -/
def escapeChar (c : Char) : List Char :=
  match c with
  | '"' => ['\\', '"']
  | '\\' => ['\\', '\\']
  | '\n' => ['\\', 'n']
  | '\r' => ['\\', 'r']
  | '\t' => ['\\', 't']
  | '\x08' => ['\\', 'b']
  | '\x0c' => ['\\', 'f']
  | c => if c.toNat < 32 then ['\\', 'u'] ++ Text.hexadecimal 4 c.toNat else [c]

/-- The written form of a string, quotes included. -/
def quote (s : String) : List Char :=
  '"' :: s.toList.flatMap escapeChar ++ ['"']

/-- The written form of a field name. -/
def quoteName : Option String → List Char
  | some name => quote name
  | none => quote "\uFFFD"

mutual

/-- The layout without blanks. -/
def compactChars : Json → List Char
  | .null => "null".toList
  | .bool true => "true".toList
  | .bool false => "false".toList
  | .natural n => Text.decimal n
  | .literal t => t.toList
  | .text s => quote s
  | .unpaired => quote "\uFFFD"
  | .array items => '[' :: compactItems items ++ [']']
  | .object fields => '\x7b' :: compactFields fields ++ ['\x7d']

/-- Items separated by commas. -/
def compactItems : List Json → List Char
  | [] => []
  | [j] => compactChars j
  | j :: js => compactChars j ++ ',' :: compactItems js

/-- Fields separated by commas. -/
def compactFields : List (Option String × Json) → List Char
  | [] => []
  | [(name, j)] => quoteName name ++ ':' :: compactChars j
  | (name, j) :: rest => quoteName name ++ ':' :: compactChars j ++ ',' :: compactFields rest

end

/-- A line break and the indentation of the given level. -/
def newline (level : Nat) : List Char :=
  '\n' :: List.replicate (2 * level) ' '

mutual

/-- The indented layout of a value that stands at the given level. -/
def prettyChars (level : Nat) : Json → List Char
  | .null => "null".toList
  | .bool true => "true".toList
  | .bool false => "false".toList
  | .natural n => Text.decimal n
  | .literal t => t.toList
  | .text s => quote s
  | .unpaired => quote "\uFFFD"
  | .array [] => ['[', ']']
  | .array (j :: js) => '[' :: prettyItems (level + 1) (j :: js) ++ newline level ++ [']']
  | .object [] => ['\x7b', '\x7d']
  | .object (f :: fs) => '\x7b' :: prettyFields (level + 1) (f :: fs) ++ newline level ++ ['\x7d']

/-- Items on lines of their own at the given level. -/
def prettyItems (level : Nat) : List Json → List Char
  | [] => []
  | [j] => newline level ++ prettyChars level j
  | j :: js => newline level ++ prettyChars level j ++ ',' :: prettyItems level js

/-- Fields on lines of their own at the given level. -/
def prettyFields (level : Nat) : List (Option String × Json) → List Char
  | [] => []
  | [(name, j)] => newline level ++ quoteName name ++ [':', ' '] ++ prettyChars level j
  | (name, j) :: rest =>
    newline level ++ quoteName name ++ [':', ' '] ++ prettyChars level j ++
      ',' :: prettyFields level rest

end

/-- The text of a value without blanks. -/
def compact (j : Json) : String :=
  String.ofList (compactChars j)

/-- The indented text of a value. -/
def pretty (j : Json) : String :=
  String.ofList (prettyChars 0 j)

end Interleave.Json
