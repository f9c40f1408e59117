import Interleave.Json.Basic

/-!
# Decoding JSON values

Readers of the shapes that the saved formats are made of. A record is an object, or an array of its
fields in order. In an object unknown names are passed over at any depth, a repeated known name is
refused, and a field may be missing only if its `Presence` allows that; in an array only fields with
a default may be missing, at the end. Integers are plain digits below a bound.
-/

namespace Interleave.Json

/-- Whether a field of a record may be left out. -/
inductive Presence where
  | required
  | nullable
  | defaulted
  deriving DecidableEq

/-- The values of the field of the given name, in order. -/
def valuesOf (name : String) (fields : List (Option String × Json)) : List Json :=
  (fields.filter fun f => f.1 = some name).map (·.2)

/-- The value of one field of an object. -/
def fieldOf? (fields : List (Option String × Json)) : String × Presence → Option (Option Json)
  | (name, presence) =>
    match valuesOf name fields, presence with
    | [j], _ => some (some j)
    | [], .required => none
    | [], _ => some none
    | _, _ => none

/-- The values of the fields of a record written as an array. -/
def positions? : List (String × Presence) → List Json → Option (List (Option Json))
  | [], [] => some []
  | [], _ :: _ => none
  | (_, .defaulted) :: spec, [] => (positions? spec []).map (none :: ·)
  | _ :: _, [] => none
  | _ :: spec, j :: js => (positions? spec js).map (some j :: ·)

/-- The values of the fields of a record, in the order of its specification. -/
def fields (spec : List (String × Presence)) : Json → Option (List (Option Json))
  | .object fs => if fs.any (·.1.isNone) then none else spec.mapM (fieldOf? fs)
  | .array js => positions? spec js
  | _ => none

/-- A Boolean. -/
def toBool? : Json → Option Bool
  | .bool b => some b
  | _ => none

/-- A string. -/
def toText? : Json → Option String
  | .text s => some s
  | _ => none

/-- A natural number below the bound. -/
def toNat? (bound : Nat) : Json → Option Nat
  | .natural n => if n < bound then some n else none
  | _ => none

/-- A count or index of 64 bits. -/
def toSize? : Json → Option Nat :=
  toNat? UInt64.size

/-- A word of 64 bits. -/
def toWord? (j : Json) : Option UInt64 :=
  (toNat? UInt64.size j).map Nat.toUInt64

/-- An array whose items are all read by `decode`. -/
def toList? {α : Type} (decode : Json → Option α) : Json → Option (List α)
  | .array js => js.mapM decode
  | _ => none

/-- A field that may be missing or `null`. -/
def toOption? {α : Type} (decode : Json → Option α) : Option Json → Option (Option α)
  | none => some none
  | some .null => some none
  | some j => (decode j).map some

/-- A field with a default. -/
def orDefault {α : Type} (decode : Json → Option α) (default : α) : Option Json → Option α
  | none => some default
  | some j => decode j

/-- A field that is there. -/
def present {α : Type} (decode : Json → Option α) : Option Json → Option α
  | none => none
  | some j => decode j

end Interleave.Json
