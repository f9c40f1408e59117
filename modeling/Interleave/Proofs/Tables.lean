import Interleave.EventTree.Recorder

/-!
# Tables

A table is a list of entries with one entry a key. The laws here say what is found under a key after
an entry has been set or taken away.
-/

namespace Interleave

/-- Entries of other keys may be left out of a table. -/
theorem lookup_filter {κ ν : Type} [BEq κ] [LawfulBEq κ] {x : κ} {p : κ × ν → Bool}
    (h : ∀ entry, entry.1 = x → p entry = true) (table : List (κ × ν)) :
    (table.filter p).lookup x = table.lookup x := by
  induction table with
  | nil => rfl
  | cons entry rest ih =>
      obtain ⟨key, value⟩ := entry
      rw [List.filter_cons]
      cases hp : p (key, value) with
      | true => simp only [if_true, List.lookup_cons, ih]
      | false =>
          have hne : (x == key) = false := by
            rw [beq_eq_false_iff_ne]
            rintro rfl
            rw [h _ rfl] at hp
            cases hp
          simp only [Bool.false_eq_true, if_false, List.lookup_cons, hne, ih]

variable {κ ν : Type} [BEq κ] [LawfulBEq κ]

theorem lookup_dissoc (key x : κ) (table : List (κ × ν)) :
    (dissoc key table).lookup x = if x == key then none else table.lookup x := by
  unfold dissoc
  cases hx : x == key with
  | false =>
      have hother : ∀ entry : κ × ν, entry.1 = x → (!entry.1 == key) = true := by
        rintro entry rfl
        rw [hx]
        rfl
      rw [lookup_filter hother]
      rfl
  | true =>
      obtain rfl := eq_of_beq hx
      rw [if_pos rfl]
      induction table with
      | nil => rfl
      | cons entry rest ih =>
          rw [List.filter_cons]
          split
          · rename_i hkeep
            have hne : (x == entry.1) = false := by
              rw [beq_eq_false_iff_ne]
              rintro rfl
              simp at hkeep
            obtain ⟨found, value⟩ := entry
            rw [List.lookup_cons, hne]
            exact ih
          · exact ih

theorem lookup_assoc (key x : κ) (value : ν) (table : List (κ × ν)) :
    (assoc key value table).lookup x = if x == key then some value else table.lookup x := by
  unfold assoc
  rw [List.lookup_cons]
  cases hx : x == key with
  | true => rfl
  | false =>
      have h := lookup_dissoc key x table
      rw [hx] at h
      exact h

end Interleave
