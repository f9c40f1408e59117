/-!
# JSON documents

The values of JSON. An object keeps its fields in order, repeated names included, because a reader
must notice a repeated name. A number is either a natural number written in plain digits or any
other literal, kept as its text. A string literal whose escapes denote an unpaired surrogate has no
text: it is `unpaired`, and as a field name it is `none`.
-/

namespace Interleave

/-- A JSON value. -/
inductive Json where
  | null
  | bool (value : Bool)
  | natural (value : Nat)
  | literal (text : String)
  | text (value : String)
  | unpaired
  | array (items : List Json)
  | object (fields : List (Option String × Json))

namespace Json

instance : Inhabited Json := ⟨.null⟩

/-- An object from its named fields, in order. -/
def record (fields : List (String × Json)) : Json :=
  .object (fields.map fun (name, value) => (some name, value))

/-- `null` for an absent value. -/
def optional {α : Type} (encode : α → Json) : Option α → Json
  | none => .null
  | some value => encode value

/-- A named field, or none at all for an absent value. -/
def optionalField {α : Type} (name : String) (encode : α → Json) : Option α → List (String × Json)
  | none => []
  | some value => [(name, encode value)]

end Json

end Interleave
