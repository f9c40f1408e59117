import Interleave.EventTree.Basic

/-!
# Links of a history

A history is a list of happenings. Happenings are linked by keys: one that opens a key is linked to
the next one that closes it, unless the key is opened anew or cut off in between. `Linkage.Awaits`
says that a key has been opened and not been closed, opened anew or cut off since, and
`Linkage.Joins` that two happenings are linked. A table of the open keys and the links made so far
can be kept up to date one happening at a time (`Linkage.Tracks`), and of the links that come about
in this way no two lead to the same happening.
-/

namespace Interleave

/-- What happened at a step, without its place, its links and its signature. -/
structure Happening where
  kind : StepKind
  source : OperationId
  target : OperationId
  event : Option Event
  deriving DecidableEq

/-- The message that was sent or received. -/
def Happening.message? (a : Happening) : Option MessageId :=
  a.event.bind (·.message)

/-- The keys that happenings open and close. -/
structure Linkage (κ : Type) where
  opens : Happening → Option κ
  closes : Happening → Option κ

namespace Linkage

variable {κ : Type} (L : Linkage κ) (history : List Happening) (cut : κ → Nat → Prop)

/-- The happening at `i` has opened the key, which is still open. The relation `cut` tells at which
lengths of the history a key was cut off. -/
structure Awaits (x : κ) (i : Nat) : Prop where
  opened : ∃ a, history[i]? = some a ∧ L.opens a = some x
  since : ∀ k a, i < k → history[k]? = some a → L.opens a ≠ some x ∧ L.closes a ≠ some x
  uncut : ∀ k, cut x k → k ≤ i

/-- The happening at `j` closes the key that the one at `i` has opened. -/
structure Joins (x : κ) (i j : Nat) : Prop where
  opened : ∃ a, history[i]? = some a ∧ L.opens a = some x
  closed : ∃ a, history[j]? = some a ∧ L.closes a = some x
  before : i < j
  between : ∀ k a, i < k → k < j → history[k]? = some a →
    L.opens a ≠ some x ∧ L.closes a ≠ some x
  uncut : ∀ k, cut x k → i < k → ¬k ≤ j

/-- A table of the open keys and a table of links are those of the history. -/
structure Tracks (table : κ → Option Nat) (link : Nat → Option Nat) : Prop where
  bounded : ∀ x k, cut x k → k ≤ history.length
  table : ∀ x i, table x = some i ↔ L.Awaits history cut x i
  link : ∀ i j, link i = some j ↔ ∃ x, L.Joins history cut x i j

variable {L history cut}

theorem Awaits.lt_length {x : κ} {i : Nat} (h : L.Awaits history cut x i) :
    i < history.length := by
  obtain ⟨a, ha, -⟩ := h.opened
  exact (List.getElem?_eq_some_iff.mp ha).1

theorem Joins.lt_length {x : κ} {i j : Nat} (h : L.Joins history cut x i j) :
    j < history.length := by
  obtain ⟨a, ha, -⟩ := h.closed
  exact (List.getElem?_eq_some_iff.mp ha).1

/-- No happening is linked from two others. -/
theorem Joins.left_unique {x x' : κ} {i i' j : Nat} (h : L.Joins history cut x i j)
    (h' : L.Joins history cut x' i' j) : i = i' := by
  obtain ⟨a, ha, hx⟩ := h.closed
  obtain ⟨a', ha', hx'⟩ := h'.closed
  rw [ha, Option.some.injEq] at ha'
  subst ha'
  obtain rfl : x = x' := Option.some.inj (hx.symm.trans hx')
  obtain ⟨b, hb, hopens⟩ := h.opened
  obtain ⟨b', hb', hopens'⟩ := h'.opened
  -- the earlier one would have been replaced by the later one
  rcases Nat.lt_trichotomy i i' with hlt | heq | hlt
  · exact absurd hopens' (h.between i' b' hlt h'.before hb').1
  · exact heq
  · exact absurd hopens (h'.between i b hlt h.before hb).1

/-- What is still open has not been linked. -/
theorem Awaits.not_joins {x x' : κ} {i j : Nat} (h : L.Awaits history cut x i) :
    ¬L.Joins history cut x' i j := by
  intro hjoins
  obtain ⟨a, ha, hx⟩ := h.opened
  obtain ⟨a', ha', hx'⟩ := hjoins.opened
  rw [ha, Option.some.injEq] at ha'
  subst ha'
  obtain rfl : x = x' := Option.some.inj (hx.symm.trans hx')
  obtain ⟨b, hb, hcloses⟩ := hjoins.closed
  exact (h.since j b hjoins.before hb).2 hcloses

/-! ## One more happening -/

/-- The tables of a history with a single happening. -/
theorem tracks_singleton (L : Linkage κ) [DecidableEq κ] {a : Happening} {table : κ → Option Nat}
    {link : Nat → Option Nat} (htable : ∀ x, table x = if some x = L.opens a then some 0 else none)
    (hlink : ∀ i, link i = none) : L.Tracks [a] (fun _ _ => False) table link where
  bounded _ _ := False.elim
  table x i := by
    rw [htable]
    constructor
    · intro h
      split at h
      · cases h
        rename_i hopens
        refine ⟨⟨a, rfl, hopens.symm⟩, fun k b hk hb => ?_, fun _ => False.elim⟩
        have hlt : k < 1 := (List.getElem?_eq_some_iff.mp hb).1
        omega
      · cases h
    · intro h
      have hi : i < 1 := h.lt_length
      obtain rfl : i = 0 := by omega
      obtain ⟨b, hb, hopens⟩ := h.opened
      cases hb
      rw [if_pos hopens.symm]
  link i j := by
    rw [hlink]
    constructor
    · intro h
      cases h
    · rintro ⟨x, h⟩
      have hlt : j < 1 := h.lt_length
      have := h.before
      omega

theorem lt_or_eq_of_getElem?_concat {a b : Happening} {k : Nat}
    (h : (history ++ [a])[k]? = some b) :
    (k < history.length ∧ history[k]? = some b) ∨ (k = history.length ∧ b = a) := by
  rcases Nat.lt_trichotomy k history.length with hlt | rfl | hgt
  · exact Or.inl ⟨hlt, (List.getElem?_append_left hlt).symm.trans h⟩
  · rw [List.getElem?_concat_length] at h
    exact Or.inr ⟨rfl, (Option.some.inj h).symm⟩
  · have hlt := (List.getElem?_eq_some_iff.mp h).1
    simp only [List.length_append, List.length_singleton] at hlt
    omega

/-- A key is open after a happening if this opens it, or if it was open and is not closed. -/
theorem awaits_concat {x : κ} (hbounded : ∀ k, cut x k → k ≤ history.length) (a : Happening)
    (i : Nat) :
    L.Awaits (history ++ [a]) cut x i ↔
      (L.opens a = some x ∧ i = history.length) ∨
        (L.opens a ≠ some x ∧ L.closes a ≠ some x ∧ L.Awaits history cut x i) := by
  constructor
  · intro h
    obtain ⟨b, hb, hopens⟩ := h.opened
    rcases lt_or_eq_of_getElem?_concat hb with ⟨hlt, hold⟩ | ⟨rfl, rfl⟩
    · obtain ⟨hnot, hnot'⟩ := h.since _ a hlt (List.getElem?_concat_length)
      refine Or.inr ⟨hnot, hnot', ⟨b, hold, hopens⟩, fun k c hk hc => ?_, h.uncut⟩
      refine h.since k c hk ?_
      rw [List.getElem?_append_left (List.getElem?_eq_some_iff.mp hc).1]
      exact hc
    · exact Or.inl ⟨hopens, rfl⟩
  · rintro (⟨hopens, rfl⟩ | ⟨hnot, hnot', h⟩)
    · refine ⟨⟨a, List.getElem?_concat_length, hopens⟩, fun k b hk hb => ?_, hbounded⟩
      rcases lt_or_eq_of_getElem?_concat hb with ⟨hlt, -⟩ | ⟨heq, -⟩ <;> omega
    · obtain ⟨b, hb, hopens⟩ := h.opened
      refine ⟨⟨b, (List.getElem?_append_left h.lt_length).trans hb, hopens⟩,
        fun k c hk hc => ?_, h.uncut⟩
      rcases lt_or_eq_of_getElem?_concat hc with ⟨-, hold⟩ | ⟨-, rfl⟩
      · exact h.since k c hk hold
      · exact ⟨hnot, hnot'⟩

/-- A happening adds at most the link from the one that has opened the key it closes. -/
theorem joins_concat {x : κ} (hbounded : ∀ k, cut x k → k ≤ history.length) (a : Happening)
    (i j : Nat) :
    L.Joins (history ++ [a]) cut x i j ↔
      L.Joins history cut x i j ∨
        (j = history.length ∧ L.closes a = some x ∧ L.Awaits history cut x i) := by
  constructor
  · -- the end of the link is the new happening or an old one
    intro h
    obtain ⟨b, hb, hopens⟩ := h.opened
    obtain ⟨c, hc, hcloses⟩ := h.closed
    have hold : ∀ {k d}, k < history.length → history[k]? = some d →
        (history ++ [a])[k]? = some d :=
      fun hlt hd => (List.getElem?_append_left hlt).trans hd
    have hlt : i < history.length := by
      have hj : j < (history ++ [a]).length := (List.getElem?_eq_some_iff.mp hc).1
      have hij := h.before
      simp only [List.length_append, List.length_singleton] at hj
      omega
    have hb' : history[i]? = some b := (List.getElem?_append_left hlt).symm.trans hb
    rcases lt_or_eq_of_getElem?_concat hc with ⟨hjlt, hc'⟩ | ⟨rfl, rfl⟩
    · exact Or.inl ⟨⟨b, hb', hopens⟩, ⟨c, hc', hcloses⟩, h.before,
        fun k d hk hkj hd => h.between k d hk hkj (hold (Nat.lt_trans hkj hjlt) hd), h.uncut⟩
    · refine Or.inr ⟨rfl, hcloses, ⟨b, hb', hopens⟩, fun k d hk hd => ?_, fun k hcut => ?_⟩
      · have hkj := (List.getElem?_eq_some_iff.mp hd).1
        exact h.between k d hk hkj (hold hkj hd)
      · exact Nat.le_of_not_lt fun hlate => h.uncut k hcut hlate (hbounded k hcut)
  · rintro (h | ⟨rfl, hcloses, h⟩)
    · obtain ⟨b, hb, hopens⟩ := h.opened
      obtain ⟨c, hc, hcloses⟩ := h.closed
      refine ⟨⟨b, ?_, hopens⟩, ⟨c, ?_, hcloses⟩, h.before, fun k d hk hkj hd => ?_, h.uncut⟩
      · exact (List.getElem?_append_left (Nat.lt_trans h.before h.lt_length)).trans hb
      · exact (List.getElem?_append_left h.lt_length).trans hc
      · rw [List.getElem?_append_left (Nat.lt_trans hkj h.lt_length)] at hd
        exact h.between k d hk hkj hd
    · obtain ⟨b, hb, hopens⟩ := h.opened
      refine ⟨⟨b, (List.getElem?_append_left h.lt_length).trans hb, hopens⟩,
        ⟨a, List.getElem?_concat_length, hcloses⟩, h.lt_length, fun k d hk hkj hd => ?_,
        fun k hcut hk => ?_⟩
      · rw [List.getElem?_append_left hkj] at hd
        exact h.since k d hk hd
      · exact absurd (h.uncut k hcut) (Nat.not_le_of_lt hk)

variable {table table' : κ → Option Nat} {link link' : Nat → Option Nat}

/-- The tables after a happening: the key it closes is taken out and linked, the key it opens is
entered. -/
theorem Tracks.concat [DecidableEq κ] (h : L.Tracks history cut table link) (a : Happening)
    (htable : ∀ x, table' x =
      if some x = L.opens a then some history.length
      else if some x = L.closes a then none
      else table x)
    (hlink : ∀ i, link' i =
      if (L.closes a).bind table = some i then some history.length else link i) :
    L.Tracks (history ++ [a]) cut table' link' where
  bounded x k hcut := by
    rw [List.length_append]
    exact Nat.le_add_right_of_le (h.bounded x k hcut)
  table x i := by
    rw [awaits_concat (h.bounded x), htable]
    by_cases hopens : some x = L.opens a
    · simp [← hopens, eq_comm]
    · by_cases hcloses : some x = L.closes a
      · simp [← hcloses, hopens, Ne.symm hopens]
      · simp [hopens, Ne.symm hopens, hcloses, Ne.symm hcloses, h.table]
  link i j := by
    simp only [joins_concat (h.bounded _), exists_or, hlink]
    have hclosed : (L.closes a).bind table = some i ↔
        ∃ x, L.closes a = some x ∧ L.Awaits history cut x i := by
      rw [Option.bind_eq_some_iff]
      exact exists_congr fun x => and_congr_right fun _ => h.table x i
    by_cases hnew : (L.closes a).bind table = some i
    · obtain ⟨x, hcloses, hawaits⟩ := hclosed.mp hnew
      rw [if_pos hnew]
      constructor
      · intro hj
        exact Or.inr ⟨x, (Option.some.inj hj).symm, hcloses, hawaits⟩
      · rintro (⟨y, hjoins⟩ | ⟨y, rfl, -, -⟩)
        · exact absurd hjoins hawaits.not_joins
        · rfl
    · rw [if_neg hnew, h.link]
      constructor
      · exact Or.inl
      · rintro (hjoins | ⟨y, -, hcloses, hawaits⟩)
        · exact hjoins
        · exact absurd (hclosed.mpr ⟨y, hcloses, hawaits⟩) hnew

/-- A key that is cut off is taken out of the table of open keys. -/
theorem Tracks.cutOff [DecidableEq κ] (h : L.Tracks history cut table link) (y : κ)
    (htable : ∀ x, table' x = if x = y then none else table x) :
    L.Tracks history (fun x k => cut x k ∨ (x = y ∧ k = history.length)) table' link where
  bounded x k := by
    rintro (hcut | ⟨-, rfl⟩)
    · exact h.bounded x k hcut
    · exact Nat.le_refl _
  table x i := by
    rw [htable]
    constructor
    · intro hx
      split at hx
      · cases hx
      · rename_i hne
        have hawaits := (h.table x i).mp hx
        refine ⟨hawaits.opened, hawaits.since, fun k hcut => ?_⟩
        rcases hcut with hcut | ⟨heq, -⟩
        · exact hawaits.uncut k hcut
        · exact absurd heq hne
    · intro hawaits
      have hne : x ≠ y := by
        rintro rfl
        exact absurd (hawaits.uncut _ (Or.inr ⟨rfl, rfl⟩)) (Nat.not_le_of_lt hawaits.lt_length)
      rw [if_neg hne, h.table]
      exact ⟨hawaits.opened, hawaits.since, fun k hcut => hawaits.uncut k (Or.inl hcut)⟩
  link i j := by
    rw [h.link]
    refine exists_congr fun x => ⟨fun hjoins => ?_, fun hjoins => ?_⟩
    · refine ⟨hjoins.opened, hjoins.closed, hjoins.before, hjoins.between, fun k hcut hk => ?_⟩
      rcases hcut with hcut | ⟨-, rfl⟩
      · exact hjoins.uncut k hcut hk
      · exact Nat.not_le_of_lt hjoins.lt_length
    · exact ⟨hjoins.opened, hjoins.closed, hjoins.before, hjoins.between,
        fun k hcut => hjoins.uncut k (Or.inl hcut)⟩

/-- A link leads forward. -/
theorem Tracks.forward (h : L.Tracks history cut table link) {i j : Nat}
    (hlink : link i = some j) : i < j ∧ j < history.length := by
  obtain ⟨x, hjoins⟩ := (h.link i j).mp hlink
  exact ⟨hjoins.before, hjoins.lt_length⟩

/-- What is entered in the table is not linked yet. -/
theorem Tracks.link_eq_none (h : L.Tracks history cut table link) {x : κ} {i : Nat}
    (hopen : table x = some i) : link i = none := by
  rw [Option.eq_none_iff_forall_ne_some]
  intro j hj
  obtain ⟨y, hjoins⟩ := (h.link i j).mp hj
  exact ((h.table x i).mp hopen).not_joins hjoins

theorem Tracks.left_unique (h : L.Tracks history cut table link) {i i' j : Nat}
    (hi : link i = some j) (hi' : link i' = some j) : i = i' := by
  obtain ⟨x, hjoins⟩ := (h.link i j).mp hi
  obtain ⟨x', hjoins'⟩ := (h.link i' j).mp hi'
  exact hjoins.left_unique hjoins'

end Linkage

end Interleave
