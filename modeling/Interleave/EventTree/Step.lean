import Interleave.Event

/-!
# Steps

One step of a run: what an operation did, the event involved and two links forward, to the next step
of the same operation and to the step that this one brought about. A `Signature` identifies a step
across runs by its event name and its occurrence.
-/

namespace Interleave

/-- What a step did. -/
inductive StepKind where
  | start
  | create
  | send
  | receive
  | boolean (value : Bool)
  | integer (value : UInt32)
  deriving DecidableEq

namespace StepKind

/-- The name of a step kind, without the value of a choice. -/
def label : StepKind → String
  | .start => "Start"
  | .create => "Create"
  | .send => "Send"
  | .receive => "Receive"
  | .boolean _ => "NondetBool"
  | .integer _ => "NondetInt"

/-- Whether the step is a nondeterministic choice, which takes no scheduling decision. -/
def isChoice : StepKind → Bool
  | .boolean _ => true
  | .integer _ => true
  | _ => false

/-- The step that a choice makes. -/
def ofChoice : Choice → StepKind
  | .boolean b => .boolean b
  | .integer n => .integer n

/-- The choice that a step made. -/
def choice? : StepKind → Option Choice
  | .boolean b => some (.boolean b)
  | .integer n => some (.integer n)
  | _ => none

/-- The shown form: the label and the value of a choice in parentheses. -/
def text : StepKind → String
  | .boolean true => "NondetBool(true)"
  | .boolean false => "NondetBool(false)"
  | .integer n => "NondetInt(" ++ Text.showNat n.toNat ++ ")"
  | kind => kind.label

/-- The JSON form: a name, or an object of a name and a value. -/
def toJson : StepKind → Json
  | .boolean b => .record [("NondetBool", .bool b)]
  | .integer n => .record [("NondetInt", .natural n.toNat)]
  | kind => .text kind.label

/-- The kind without a value of the given name. -/
def ofLabel? : String → Option StepKind
  | "Start" => some .start
  | "Create" => some .create
  | "Send" => some .send
  | "Receive" => some .receive
  | _ => none

/-- The kind that a JSON value denotes. A kind without a value may also be an object of its name and
`null`. -/
def ofJson? : Json → Option StepKind
  | .text name => ofLabel? name
  | .object [(some "NondetBool", j)] => (Json.toBool? j).map .boolean
  | .object [(some "NondetInt", j)] => (Json.toNat? UInt32.size j).map fun n => .integer n.toUInt32
  | .object [(some name, .null)] => ofLabel? name
  | _ => none

end StepKind

/-- What identifies a step across runs, and where it stood in the run that produced it. -/
structure Signature where
  /-- Name of the step's event, if it has one. -/
  eventName : Option String
  /-- Occurrence of this label and event name within the run, from 0. -/
  occurrence : Nat
  /-- Index of the step in its run. -/
  index : Nat
  source : OperationId
  kind : StepKind
  deriving DecidableEq

namespace Signature

/-- The part of a signature by which steps of different runs are compared. -/
def identity (s : Signature) : Option String × Nat :=
  (s.eventName, s.occurrence)

/-- Whether two signatures identify the same step. -/
def agrees (a b : Signature) : Bool :=
  a.identity == b.identity

/-- The shown form of a signature. -/
def text (s : Signature) : String :=
  Text.showNat s.index ++ ":" ++ s.source.text ++ ":" ++ s.kind.label

/-- The JSON form of a signature. -/
def toJson (s : Signature) : Json :=
  .record [
    ("event_name", .optional .text s.eventName),
    ("event_index", .natural s.occurrence),
    ("index", .natural s.index),
    ("source", s.source.toJson),
    ("kind", s.kind.toJson)]

/-- The signature that a JSON value denotes. -/
def ofJson? (j : Json) : Option Signature :=
  match j.fields [("event_name", .nullable), ("event_index", .required), ("index", .required),
      ("source", .required), ("kind", .required)] with
  | some [name, occurrence, index, source, kind] => do
    return {
      eventName := ← Json.toOption? Json.toText? name
      occurrence := ← Json.present Json.toSize? occurrence
      index := ← Json.present Json.toSize? index
      source := ⟨← Json.present Json.toWord? source⟩
      kind := ← Json.present StepKind.ofJson? kind }
  | _ => none

end Signature

/-- One step of a run. -/
structure Step where
  /-- Place of the step in the run, from 0. -/
  index : Nat
  kind : StepKind
  /-- Operation that took the step. -/
  source : OperationId
  /-- Operation acted upon, or the source itself. -/
  target : OperationId
  event : Option Event
  /-- Next step of the same operation. -/
  directChild : Option Nat
  /-- The start of a created operation, or the receive of a sent message. -/
  createdChild : Option Nat
  signature : Signature
  deriving DecidableEq

namespace Step

/-- The name of the step's event. -/
def eventName (s : Step) : Option String :=
  s.event.map (·.name)

/-- Whether two steps are equal up to the parts of their signatures that are not compared. -/
def agrees (a b : Step) : Bool :=
  a.signature.agrees b.signature && decide ({ a with signature := b.signature } = b)

/-- The shown form of a step. -/
def text (s : Step) : String :=
  "#" ++ Text.showNat s.index ++ " " ++ s.kind.text ++ " " ++ s.source.text ++ "→" ++
    s.target.text ++
    (match s.event with
      | some e => " " ++ e.text
      | none => "")

/-- The JSON form of a step; an absent event or link is left out. -/
def toJson (s : Step) : Json :=
  .record ([
    ("index", .natural s.index),
    ("kind", s.kind.toJson),
    ("source", s.source.toJson),
    ("target", s.target.toJson)] ++
    Json.optionalField "event" Event.toJson s.event ++
    Json.optionalField "direct_child" .natural s.directChild ++
    Json.optionalField "created_child" .natural s.createdChild ++
    [("signature", s.signature.toJson)])

/-- The step that a JSON value denotes. -/
def ofJson? (j : Json) : Option Step :=
  match j.fields [("index", .required), ("kind", .required), ("source", .required),
      ("target", .required), ("event", .defaulted), ("direct_child", .defaulted),
      ("created_child", .defaulted), ("signature", .required)] with
  | some [index, kind, source, target, event, direct, created, signature] => do
    return {
      index := ← Json.present Json.toSize? index
      kind := ← Json.present StepKind.ofJson? kind
      source := ⟨← Json.present Json.toWord? source⟩
      target := ⟨← Json.present Json.toWord? target⟩
      event := ← Json.toOption? Event.ofJson? event
      directChild := ← Json.toOption? Json.toSize? direct
      createdChild := ← Json.toOption? Json.toSize? created
      signature := ← Json.present Signature.ofJson? signature }
  | _ => none

end Step

end Interleave
