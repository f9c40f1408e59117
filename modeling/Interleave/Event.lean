import Interleave.Digest
import Interleave.Json.Decode
import Interleave.Operation

/-!
# Events, choices and notices

What a program reports while it runs. An `Event` describes a message without its payload, of which
only a digest is kept. A `Notice` is one entry of the stream that a strategy observes; sends are
reported apart, because the strategy answers whether the message is delivered.
-/

namespace Interleave

/-- The identity of one message. -/
structure MessageId where
  value : UInt64
  deriving DecidableEq, Inhabited

/-- The shown form of a message identity. -/
def MessageId.text (id : MessageId) : String :=
  "m" ++ Text.showNat id.value.toNat

/-- A message: its name, its identity and the digest of its payload. -/
structure Event where
  name : String
  message : Option MessageId := none
  payload : Option UInt64 := none
  deriving DecidableEq, Inhabited

namespace Event

/-- The event with the digest of the given payload. -/
def withPayload (e : Event) (p : Payload) : Event :=
  { e with payload := some (Digest.ofPayload p) }

/-- The name, followed by the digest in sixteen hexadecimal digits if there is one. -/
def text (e : Event) : String :=
  match e.payload with
  | some digest => e.name ++ "#" ++ String.ofList (Text.hexadecimal 16 digest.toNat)
  | none => e.name

/-- The JSON form of an event; absent parts are left out. -/
def toJson (e : Event) : Json :=
  .record ([("name", .text e.name)] ++
    Json.optionalField "message_id" (fun m => .natural m.value.toNat) e.message ++
    Json.optionalField "payload_hash" (fun h => .natural h.toNat) e.payload)

/-- The event that a JSON value denotes. -/
def ofJson? (j : Json) : Option Event :=
  match j.fields
      [("name", .required), ("message_id", .defaulted), ("payload_hash", .defaulted)] with
  | some [name, message, payload] => do
    return {
      name := ← Json.present Json.toText? name
      message := (← Json.toOption? Json.toWord? message).map MessageId.mk
      payload := ← Json.toOption? Json.toWord? payload }
  | _ => none

end Event

/-- A nondeterministic value handed to the program. -/
inductive Choice where
  | boolean (value : Bool)
  | integer (value : UInt32)
  deriving DecidableEq

/-- Whether a sent message reaches its inbox. -/
inductive Delivery where
  | deliver
  | withhold
  deriving DecidableEq

/-- One entry of a run's notification stream. -/
inductive Notice where
  | created (creator created : OperationId)
  | started (operation : OperationId) (initial : Option Event)
  | received (receiver : OperationId) (event : Event)
  | chosen (operation : OperationId) (choice : Choice)
  | monitored (monitor : String) (sender : OperationId) (hot : Bool)
  deriving DecidableEq

end Interleave
