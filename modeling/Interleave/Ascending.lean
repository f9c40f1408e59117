/-!
# Ascending lists

Sets held as lists that ascend, and so have every element once. Putting elements into such a list
leaves it ascending (`Ascending.insert`, `Ascending.insertAll`).
-/

namespace Interleave

variable {α : Type} [LT α]

/-- The elements ascend. -/
def Ascending (l : List α) : Prop :=
  l.Pairwise (· < ·)

instance [DecidableLT α] (l : List α) : Decidable (Ascending l) :=
  inferInstanceAs (Decidable (l.Pairwise (· < ·)))

theorem Ascending.nil : Ascending ([] : List α) :=
  List.Pairwise.nil

theorem Ascending.nodup [LE α] [Std.LawfulOrderLT α] {l : List α} (h : Ascending l) : l.Nodup := by
  refine List.Pairwise.imp ?_ h
  rintro a b hlt rfl
  exact Std.lt_irrefl hlt

/-- An ascending list is settled by its elements. -/
theorem Ascending.eq_of_mem_iff [LE α] [Std.IsLinearOrder α] [Std.LawfulOrderLT α]
    {xs ys : List α} (hxs : Ascending xs) (hys : Ascending ys) (h : ∀ x, x ∈ xs ↔ x ∈ ys) :
    xs = ys := by
  have hperm : xs.Perm ys := (List.perm_ext_iff_of_nodup hxs.nodup hys.nodup).mpr h
  refine hperm.eq_of_pairwise ?_ hxs hys
  intro x y _ _ hxy hyx
  exact absurd (Std.lt_trans hxy hyx) Std.lt_irrefl

variable [DecidableLT α] [DecidableEq α]

/-- An element put into an ascending list, once. -/
def insertAscending (a : α) : List α → List α
  | [] => [a]
  | b :: rest =>
    if a < b then a :: b :: rest
    else if a = b then b :: rest
    else b :: insertAscending a rest

/-- The elements of two lists, of which the first ascends, in one ascending list. -/
def insertAllAscending (into others : List α) : List α :=
  others.foldl (fun l a => insertAscending a l) into

theorem mem_insertAscending {a b : α} {l : List α} :
    b ∈ insertAscending a l ↔ b = a ∨ b ∈ l := by
  induction l with
  | nil => simp [insertAscending]
  | cons c rest ih =>
      unfold insertAscending
      split
      · exact List.mem_cons
      · split
        · rename_i heq
          rw [heq]
          simp
        · rw [List.mem_cons, ih, List.mem_cons]
          exact or_left_comm

theorem mem_insertAllAscending {b : α} {into others : List α} :
    b ∈ insertAllAscending into others ↔ b ∈ into ∨ b ∈ others := by
  unfold insertAllAscending
  induction others generalizing into with
  | nil => simp
  | cons a rest ih =>
      rw [List.foldl_cons, ih, mem_insertAscending, List.mem_cons, or_assoc]
      exact or_left_comm

variable [LE α] [Std.IsLinearOrder α] [Std.LawfulOrderLT α]

theorem Ascending.insert (a : α) {l : List α} (h : Ascending l) :
    Ascending (insertAscending a l) := by
  induction l with
  | nil => exact List.pairwise_singleton _ a
  | cons b rest ih =>
      obtain ⟨hfirst, hrest⟩ := List.pairwise_cons.mp h
      unfold insertAscending
      split
      · rename_i hlt
        refine List.pairwise_cons.mpr ⟨fun x hx => ?_, h⟩
        rcases List.mem_cons.mp hx with rfl | hx
        · exact hlt
        · exact Std.lt_trans hlt (hfirst x hx)
      · split
        · exact h
        · rename_i hnot hne
          refine List.pairwise_cons.mpr ⟨fun x hx => ?_, ih hrest⟩
          rcases mem_insertAscending.mp hx with rfl | hx
          · exact Std.lt_of_le_of_ne (Std.not_lt.mp hnot) (Ne.symm hne)
          · exact hfirst x hx

theorem Ascending.insertAll (others : List α) {into : List α} (h : Ascending into) :
    Ascending (insertAllAscending into others) := by
  unfold insertAllAscending
  induction others generalizing into with
  | nil => exact h
  | cons a rest ih => exact ih (h.insert a)

end Interleave
