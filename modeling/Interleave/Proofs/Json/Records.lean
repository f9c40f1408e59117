import Mathlib.Data.List.Forall2
import Interleave.Json.Decode
import Interleave.Proofs.Json.RoundTrip

/-!
# Reading back records

A record that is written in the order of its specification, absent values left out, is read as the
list of its values (`fields_record`), if the names differ and no required value is absent. The
reader sees neither the order of the fields of an object (`fields_perm`) nor the fields of other
names among them (`fields_append_unknown`).
-/

namespace Interleave.Json

/-- The fields of a record in the order of its specification; absent values are left out. -/
def written : List (String × Presence) → List (Option Json) → List (String × Json)
  | (name, _) :: spec, value :: values => optionalField name id value ++ written spec values
  | _, _ => []

/-- One value for each field, and one that is there for each required field. -/
def Fits (spec : List (String × Presence)) (values : List (Option Json)) : Prop :=
  List.Forall₂ (fun field value => value = none → field.2 ≠ .required) spec values

theorem valuesOf_record (name : String) (fs : List (String × Json)) :
    valuesOf name (fs.map fun (name, value) => (some name, value)) =
      (fs.filter fun f => f.1 = name).map (·.2) := by
  rw [valuesOf, List.filter_map, List.map_map]
  simp [Function.comp_def]

theorem mem_names_of_mem_written {spec : List (String × Presence)} {values : List (Option Json)}
    {f : String × Json} (h : f ∈ written spec values) : f.1 ∈ spec.map (·.1) := by
  induction spec generalizing values with
  | nil => cases h
  | cons field spec ih =>
      cases values with
      | nil => cases h
      | cons value values =>
          rcases List.mem_append.mp h with h | h
          · cases value with
            | none => cases h
            | some j =>
                obtain rfl := List.mem_singleton.mp h
                exact List.mem_cons_self
          · exact List.mem_cons_of_mem _ (ih h)

/-- Fields of other names stand before the part that is still to be read. -/
theorem mapM_fieldOf?_written {spec : List (String × Presence)} {values : List (Option Json)}
    (hfits : Fits spec values) (hnodup : (spec.map (·.1)).Nodup) (front : List (String × Json))
    (hfront : ∀ f ∈ front, f.1 ∉ spec.map (·.1)) :
    spec.mapM (fieldOf?
      ((front ++ written spec values).map fun (name, value) => (some name, value))) =
        some values := by
  induction hfits generalizing front with
  | nil => rfl
  | @cons field value spec values hvalue hfits ih =>
      obtain ⟨name, presence⟩ := field
      obtain ⟨hname, hspec⟩ := List.nodup_cons.mp hnodup
      have hbefore : front.filter (fun f => f.1 = name) = [] := by
        refine List.filter_eq_nil_iff.mpr fun f hf heq => ?_
        exact hfront f hf (by rw [of_decide_eq_true heq]; exact List.mem_cons_self)
      have hbehind : (written spec values).filter (fun f => f.1 = name) = [] := by
        refine List.filter_eq_nil_iff.mpr fun f hf heq => hname ?_
        rw [← of_decide_eq_true heq]
        exact mem_names_of_mem_written hf
      have hhere : (optionalField name id value).filter (fun f => f.1 = name) =
          optionalField name id value := by
        cases value <;> simp [optionalField]
      -- of the first name there is no value but the one that is written for it
      have hvalues : valuesOf name ((front ++ written ((name, presence) :: spec)
          (value :: values)).map fun (name, value) => (some name, value)) = value.toList := by
        rw [valuesOf_record, written, List.filter_append, List.filter_append, hbefore, hbehind,
          hhere]
        cases value <;> rfl
      have hfield : fieldOf? ((front ++ written ((name, presence) :: spec) (value :: values)).map
          fun (name, value) => (some name, value)) (name, presence) = some value := by
        unfold fieldOf?
        simp only [hvalues]
        cases value with
        | some j => rfl
        | none =>
            cases presence with
            | required => exact absurd rfl (hvalue rfl)
            | nullable => rfl
            | defaulted => rfl
      -- the field just read joins those in front of the rest
      have hrest := ih hspec (front ++ optionalField name id value) fun f hf => by
        rcases List.mem_append.mp hf with hf | hf
        · exact fun hmem => hfront f hf (List.mem_cons_of_mem _ hmem)
        · cases value with
          | none => cases hf
          | some j =>
              obtain rfl := List.mem_singleton.mp hf
              exact hname
      rw [List.append_assoc] at hrest
      rw [List.mapM_cons, hfield, Option.bind_eq_bind, Option.bind_some, written, hrest]
      rfl

/-- A record in the order of its specification is read as its values. -/
theorem fields_record {spec : List (String × Presence)} {values : List (Option Json)}
    (hfits : Fits spec values) (hnodup : (spec.map (·.1)).Nodup) :
    fields spec (record (written spec values)) = some values := by
  have hnamed : ((written spec values).map fun (name, value) => (some name, value)).any
      (fun f => f.1.isNone) = false := by
    simp
  rw [record, fields, hnamed]
  exact mapM_fieldOf?_written hfits hnodup [] fun f hf => by cases hf

/-- A record of plain values is plain. -/
theorem Plain.record {fs : List (String × Json)} (h : ∀ f ∈ fs, Plain f.2) :
    Plain (Json.record fs) := by
  refine .object _ (fun f hf => ?_) fun f hf => ?_
  · obtain ⟨_, -, rfl⟩ := List.mem_map.mp hf
    rfl
  · obtain ⟨field, hfield, rfl⟩ := List.mem_map.mp hf
    exact h field hfield

/-! ### Objects in any order, with fields of other names -/

/-- The values of one name decide how the field of that name is read. -/
theorem fieldOf?_congr {fs gs : List (Option String × Json)} {name : String}
    (h : valuesOf name fs = valuesOf name gs) (presence : Presence) :
    fieldOf? fs (name, presence) = fieldOf? gs (name, presence) := by
  simp only [fieldOf?, h]

theorem fieldOf?_perm {fs gs : List (Option String × Json)} (h : fs.Perm gs) :
    fieldOf? fs = fieldOf? gs := by
  funext ⟨name, presence⟩
  have hvalues : (valuesOf name fs).Perm (valuesOf name gs) := (h.filter _).map _
  -- at most one value has one order only, and more than one are refused in every order
  match hfs : valuesOf name fs, hgs : valuesOf name gs with
  | [], _ =>
      rw [hfs, List.nil_perm] at hvalues
      exact fieldOf?_congr (hfs.trans hvalues.symm) presence
  | [j], _ =>
      rw [hfs, List.singleton_perm] at hvalues
      exact fieldOf?_congr (hfs.trans hvalues) presence
  | _ :: _ :: _, _ :: _ :: _ => simp only [fieldOf?, hfs, hgs]
  | _ :: _ :: _, [] => simp [hfs, hgs] at hvalues
  | _ :: _ :: _, [_] => simp [hfs, hgs] at hvalues

/-- The order of the fields of an object does not matter. -/
theorem fields_perm {fs gs : List (Option String × Json)} (h : fs.Perm gs)
    (spec : List (String × Presence)) : fields spec (.object fs) = fields spec (.object gs) := by
  rw [fields, fields, h.any_eq, fieldOf?_perm h]

/-- A field with a name that the specification does not have. -/
def Unknown (spec : List (String × Presence)) (f : Option String × Json) : Prop :=
  ∃ name, f.1 = some name ∧ name ∉ spec.map (·.1)

/-- Unknown fields are passed over, whatever they hold and however often they stand there. -/
theorem fields_append_unknown {spec : List (String × Presence)}
    {others : List (Option String × Json)} (hothers : ∀ f ∈ others, Unknown spec f)
    (fs : List (Option String × Json)) :
    fields spec (.object (fs ++ others)) = fields spec (.object fs) := by
  have hnamed : others.any (·.1.isNone) = false := by
    rw [List.any_eq_false]
    intro f hf
    obtain ⟨name, hname, -⟩ := hothers f hf
    simp [hname]
  have hvalues : ∀ field ∈ spec, valuesOf field.1 (fs ++ others) = valuesOf field.1 fs := by
    intro field hfield
    have hnone : others.filter (fun f => f.1 = some field.1) = [] := by
      refine List.filter_eq_nil_iff.mpr fun f hf heq => ?_
      obtain ⟨name, hname, hnew⟩ := hothers f hf
      rw [hname, decide_eq_true_eq, Option.some.injEq] at heq
      exact hnew (heq ▸ List.mem_map_of_mem hfield)
    rw [valuesOf, List.filter_append, hnone, List.append_nil, valuesOf]
  have hfields : spec.mapM (fieldOf? (fs ++ others)) = spec.mapM (fieldOf? fs) :=
    calc spec.mapM (fieldOf? (fs ++ others))
      _ = (spec.map (fieldOf? (fs ++ others))).mapM id := (List.mapM_map (g := id)).symm
      _ = (spec.map (fieldOf? fs)).mapM id := by
        rw [List.map_congr_left fun field hfield => fieldOf?_congr (hvalues field hfield) field.2]
      _ = spec.mapM (fieldOf? fs) := List.mapM_map (g := id)
  rw [fields, fields, List.any_append, hnamed, Bool.or_false, hfields]

end Interleave.Json
