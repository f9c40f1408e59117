import Interleave.EventTree.Step
import Interleave.Proofs.Json.Records

/-!
# Steps read back from JSON

The JSON forms of step kinds, events, signatures and steps are plain and are read as what they were
written from, every part of the signature included. Counts and indices have to fit in a machine
word (`Signature.InRange`, `Step.InRange`).
-/

namespace Interleave

namespace Json

theorem toSize?_natural {n : Nat} (h : n < UInt64.size) : toSize? (.natural n) = some n :=
  if_pos h

theorem toWord?_natural (w : UInt64) : toWord? (.natural w.toNat) = some w := by
  have hw : toNat? UInt64.size (.natural w.toNat) = some w.toNat := if_pos (UInt64.toNat_lt_size w)
  rw [toWord?, hw, Option.map_some, Nat.toUInt64_eq, UInt64.ofNat_toNat]

/-- An absent value stays absent; a value that is there is decoded. -/
theorem toOption?_map {α : Type} {encode : α → Json} {decode : Json → Option α} {value : Option α}
    (h : ∀ x ∈ value, encode x ≠ .null ∧ decode (encode x) = some x) :
    toOption? decode (value.map encode) = some value := by
  cases value with
  | none => rfl
  | some x =>
      obtain ⟨hnull, hdecode⟩ := h x rfl
      rw [Option.map_some]
      unfold toOption?
      split
      · rename_i heq
        cases heq
      · rename_i heq
        exact absurd (Option.some.inj heq) hnull
      · rename_i j _ heq
        obtain rfl := Option.some.inj heq
        rw [hdecode, Option.map_some]

theorem toOption?_size {value : Option Nat} (h : ∀ n ∈ value, n < UInt64.size) :
    toOption? toSize? (value.map .natural) = some value :=
  toOption?_map fun n hn => ⟨Json.noConfusion, toSize?_natural (h n hn)⟩

theorem toOption?_word (value : Option UInt64) :
    toOption? toWord? (value.map fun w => .natural w.toNat) = some value :=
  toOption?_map fun w _ => ⟨Json.noConfusion, toWord?_natural w⟩

/-- A list is decoded item by item. -/
theorem toList?_map {α : Type} {encode : α → Json} {decode : Json → Option α} {items : List α}
    (h : ∀ x ∈ items, decode (encode x) = some x) :
    toList? decode (.array (items.map encode)) = some items := by
  rw [toList?]
  induction items with
  | nil => rfl
  | cons x items ih =>
      have hrest := ih fun y hy => h y (List.mem_cons_of_mem _ hy)
      rw [List.map_cons, List.mapM_cons, h x List.mem_cons_self, hrest]
      rfl

/-- A field that is missing has its default; one that is there is decoded. -/
theorem orDefault_map {α : Type} {encode : α → Json} {decode : Json → Option α} {value : Option α}
    (h : ∀ x ∈ value, decode (encode x) = some x) (default : α) :
    orDefault decode default (value.map encode) = some (value.getD default) := by
  cases value with
  | none => rfl
  | some x => exact h x rfl

theorem Plain.array_map {α : Type} {encode : α → Json} {items : List α}
    (h : ∀ x ∈ items, Plain (encode x)) : Plain (.array (items.map encode)) := by
  refine .array _ fun j hj => ?_
  obtain ⟨x, hx, rfl⟩ := List.mem_map.mp hj
  exact h x hx

theorem Plain.optional {α : Type} {encode : α → Json} (h : ∀ x, Plain (encode x))
    (value : Option α) : Plain (.optional encode value) := by
  cases value with
  | none => exact .null
  | some x => exact h x

/-- The values that are there are plain if the list of values is. -/
theorem Plain.written {spec : List (String × Presence)} {values : List (Option Json)}
    (h : ∀ value ∈ values, ∀ j ∈ value, Plain j) : Plain (.record (Json.written spec values)) := by
  refine .record fun f hf => ?_
  induction spec generalizing values with
  | nil => cases hf
  | cons field spec ih =>
      cases values with
      | nil => cases hf
      | cons value values =>
          rcases List.mem_append.mp hf with hf | hf
          · cases value with
            | none => cases hf
            | some j =>
                obtain rfl := List.mem_singleton.mp hf
                exact h _ List.mem_cons_self j rfl
          · exact ih (fun value hvalue => h value (List.mem_cons_of_mem _ hvalue)) hf

end Json

/-! ### Kinds and events -/

namespace StepKind

theorem ofJson?_toJson (k : StepKind) : ofJson? k.toJson = some k := by
  cases k with
  | start => rfl
  | create => rfl
  | send => rfl
  | receive => rfl
  | boolean b => rfl
  | integer n =>
      have hn : Json.toNat? UInt32.size (.natural n.toNat) = some n.toNat :=
        if_pos (UInt32.toNat_lt_size n)
      show (Json.toNat? UInt32.size (.natural n.toNat)).map _ = _
      rw [hn, Option.map_some, Nat.toUInt32_eq, UInt32.ofNat_toNat]

theorem plain_toJson (k : StepKind) : k.toJson.Plain := by
  cases k with
  | start => exact .text _
  | create => exact .text _
  | send => exact .text _
  | receive => exact .text _
  | boolean b => exact .record (List.forall_mem_singleton.mpr (.bool b))
  | integer n => exact .record (List.forall_mem_singleton.mpr (.natural _))

end StepKind

namespace Event

/-- The values of the fields of an event. -/
def values (e : Event) : List (Option Json) :=
  [some (.text e.name), (e.message.map (·.value)).map fun w => .natural w.toNat,
    e.payload.map fun w => .natural w.toNat]

theorem toJson_eq (e : Event) :
    e.toJson = .record (Json.written [("name", .required), ("message_id", .defaulted),
      ("payload_hash", .defaulted)] e.values) := by
  obtain ⟨name, message, payload⟩ := e
  cases message <;> cases payload <;> rfl

theorem ofJson?_toJson (e : Event) : ofJson? e.toJson = some e := by
  have hfits : Json.Fits
      [("name", .required), ("message_id", .defaulted), ("payload_hash", .defaulted)] e.values := by
    simp [Json.Fits, values]
  rw [ofJson?, toJson_eq, Json.fields_record hfits (by decide)]
  simp only [values, Json.present, Json.toText?, Json.toOption?_word, Option.bind_eq_bind,
    Option.bind_some]
  obtain ⟨name, message, payload⟩ := e
  cases message <;> rfl

theorem plain_toJson (e : Event) : e.toJson.Plain := by
  rw [toJson_eq]
  refine .written fun value hvalue j hj => ?_
  simp only [values, List.mem_cons, List.not_mem_nil, or_false] at hvalue
  rcases hvalue with rfl | rfl | rfl
  · cases hj
    exact .text _
  · obtain ⟨_, -, rfl⟩ := Option.map_eq_some_iff.mp hj
    exact .natural _
  · obtain ⟨_, -, rfl⟩ := Option.map_eq_some_iff.mp hj
    exact .natural _

end Event

/-! ### Signatures and steps -/

namespace Signature

/-- The counts of a signature fit in a machine word. -/
structure InRange (s : Signature) : Prop where
  occurrence : s.occurrence < UInt64.size
  index : s.index < UInt64.size

/-- The values of the fields of a signature. -/
def values (s : Signature) : List (Option Json) :=
  [some (.optional .text s.eventName), some (.natural s.occurrence), some (.natural s.index),
    some s.source.toJson, some s.kind.toJson]

theorem toJson_eq (s : Signature) :
    s.toJson = .record (Json.written [("event_name", .nullable), ("event_index", .required),
      ("index", .required), ("source", .required), ("kind", .required)] s.values) :=
  rfl

theorem ofJson?_toJson {s : Signature} (h : s.InRange) : ofJson? s.toJson = some s := by
  have hfits : Json.Fits [("event_name", .nullable), ("event_index", .required),
      ("index", .required), ("source", .required), ("kind", .required)] s.values := by
    simp [Json.Fits, values]
  have hname : Json.toOption? Json.toText? (some (.optional .text s.eventName)) =
      some s.eventName := by
    cases s.eventName <;> rfl
  rw [ofJson?, toJson_eq, Json.fields_record hfits (by decide)]
  simp only [values, Json.present, hname, Json.toSize?_natural h.occurrence,
    Json.toSize?_natural h.index, OperationId.toJson, Json.toWord?_natural,
    StepKind.ofJson?_toJson, Option.bind_eq_bind, Option.bind_some]
  rfl

theorem plain_toJson (s : Signature) : s.toJson.Plain := by
  rw [toJson_eq]
  refine .written fun value hvalue j hj => ?_
  simp only [values, List.mem_cons, List.not_mem_nil, or_false] at hvalue
  rcases hvalue with rfl | rfl | rfl | rfl | rfl
  · cases hj
    cases s.eventName with
    | none => exact .null
    | some name => exact .text name
  · cases hj
    exact .natural _
  · cases hj
    exact .natural _
  · cases hj
    exact .natural _
  · cases hj
    exact s.kind.plain_toJson

end Signature

namespace Step

/-- The counts and indices of a step fit in a machine word. -/
structure InRange (s : Step) : Prop where
  index : s.index < UInt64.size
  directChild : ∀ n ∈ s.directChild, n < UInt64.size
  createdChild : ∀ n ∈ s.createdChild, n < UInt64.size
  signature : s.signature.InRange

/-- The fields of a step, in order. -/
def spec : List (String × Json.Presence) :=
  [("index", .required), ("kind", .required), ("source", .required), ("target", .required),
    ("event", .defaulted), ("direct_child", .defaulted), ("created_child", .defaulted),
    ("signature", .required)]

/-- The values of the fields of a step. -/
def values (s : Step) : List (Option Json) :=
  [some (.natural s.index), some s.kind.toJson, some s.source.toJson, some s.target.toJson,
    s.event.map Event.toJson, s.directChild.map .natural, s.createdChild.map .natural,
    some s.signature.toJson]

theorem toJson_eq (s : Step) : s.toJson = .record (Json.written spec s.values) := by
  obtain ⟨index, kind, source, target, event, direct, created, signature⟩ := s
  cases event <;> cases direct <;> cases created <;> rfl

theorem ofJson?_toJson {s : Step} (h : s.InRange) : ofJson? s.toJson = some s := by
  have hfits : Json.Fits spec s.values := by simp [Json.Fits, spec, values]
  have hfields : s.toJson.fields spec = some s.values := by
    rw [toJson_eq, Json.fields_record hfits (by decide)]
  have hevent : Json.toOption? Event.ofJson? (s.event.map Event.toJson) = some s.event :=
    Json.toOption?_map fun e _ => ⟨Json.noConfusion, Event.ofJson?_toJson e⟩
  rw [spec] at hfields
  rw [ofJson?, hfields]
  simp only [values, Json.present, hevent, Json.toSize?_natural h.index,
    Json.toOption?_size h.directChild, Json.toOption?_size h.createdChild, OperationId.toJson,
    Json.toWord?_natural, StepKind.ofJson?_toJson, Signature.ofJson?_toJson h.signature,
    Option.bind_eq_bind, Option.bind_some]
  rfl

theorem plain_toJson (s : Step) : s.toJson.Plain := by
  rw [toJson_eq]
  refine .written fun value hvalue j hj => ?_
  simp only [values, List.mem_cons, List.not_mem_nil, or_false] at hvalue
  rcases hvalue with rfl | rfl | rfl | rfl | rfl | rfl | rfl | rfl
  · cases hj
    exact .natural _
  · cases hj
    exact s.kind.plain_toJson
  · cases hj
    exact .natural _
  · cases hj
    exact .natural _
  · obtain ⟨e, -, rfl⟩ := Option.map_eq_some_iff.mp hj
    exact e.plain_toJson
  · obtain ⟨_, -, rfl⟩ := Option.map_eq_some_iff.mp hj
    exact .natural _
  · obtain ⟨_, -, rfl⟩ := Option.map_eq_some_iff.mp hj
    exact .natural _
  · cases hj
    exact s.signature.plain_toJson

end Step

end Interleave
