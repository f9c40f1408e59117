import Mathlib.Data.List.Basic
import Mathlib.Data.List.TakeWhile
import Interleave.Text.Blank

/-!
# Laws of trimming, lines and splitting

Trimming a text takes nothing away exactly when no blank stands at its ends
(`trimEnd_eq_self_iff`, `Line.trim`), and what is left has none there. The lines of a text
are free of line feeds (`not_mem_of_mem_lines`), and texts free of line feeds, each ended by one,
are the lines of what they make up together (`lines_flatMap`). A text splits where the split
character stands first, or last, and what it splits into is part of it.
-/

namespace Interleave.Text

/-- Whether the first character is blank. -/
def startsBlank (cs : List Char) : Bool :=
  cs.head?.any isBlank

/-- Whether the last character is blank. -/
def endsBlank (cs : List Char) : Bool :=
  cs.getLast?.any isBlank

/-- A text that stands on one line and of whose end trimming takes nothing. -/
structure Ending (cs : List Char) : Prop where
  oneLine : '\n' ∉ cs
  trimmed : endsBlank cs = false

/-- A text that is one line of its own: not blank, and trimming takes nothing away. -/
structure Line (cs : List Char) : Prop extends Ending cs where
  nonempty : cs ≠ []
  flush : startsBlank cs = false

instance (cs : List Char) : Decidable (Ending cs) :=
  decidable_of_iff ('\n' ∉ cs ∧ endsBlank cs = false)
    ⟨fun h => ⟨h.1, h.2⟩, fun h => ⟨h.oneLine, h.trimmed⟩⟩

instance (cs : List Char) : Decidable (Line cs) :=
  decidable_of_iff (Ending cs ∧ cs ≠ [] ∧ startsBlank cs = false)
    ⟨fun h => ⟨h.1, h.2.1, h.2.2⟩, fun h => ⟨h.toEnding, h.nonempty, h.flush⟩⟩

/-! ### Trimming -/

theorem startsBlank_dropWhile (cs : List Char) : startsBlank (cs.dropWhile isBlank) = false := by
  induction cs with
  | nil => rfl
  | cons c cs ih =>
      rw [List.dropWhile_cons]
      cases hc : isBlank c with
      | true => exact ih
      | false => simpa [startsBlank] using hc

theorem dropWhile_eq_self_iff (cs : List Char) :
    cs.dropWhile isBlank = cs ↔ startsBlank cs = false := by
  cases cs with
  | nil => simp [startsBlank]
  | cons c cs =>
      constructor
      · intro h
        rw [← h]
        exact startsBlank_dropWhile _
      · intro h
        have hc : isBlank c = false := by simpa [startsBlank] using h
        simp [hc]

theorem endsBlank_eq_startsBlank_reverse (cs : List Char) :
    endsBlank cs = startsBlank cs.reverse := by
  simp [endsBlank, startsBlank, List.head?_reverse]

theorem endsBlank_trimEnd (cs : List Char) : endsBlank (trimEnd cs) = false := by
  rw [endsBlank_eq_startsBlank_reverse, trimEnd, List.reverse_reverse]
  exact startsBlank_dropWhile _

theorem trimEnd_eq_self_iff (cs : List Char) : trimEnd cs = cs ↔ endsBlank cs = false := by
  rw [endsBlank_eq_startsBlank_reverse, ← dropWhile_eq_self_iff, trimEnd, List.reverse_eq_iff]

/-- Blanks at the end of the second text do not touch a first one that ends in no blank. -/
theorem trimEnd_append {cs : List Char} (h : endsBlank cs = false) (ds : List Char) :
    trimEnd (cs ++ ds) = cs ++ trimEnd ds := by
  rw [endsBlank_eq_startsBlank_reverse, ← dropWhile_eq_self_iff] at h
  rw [trimEnd, trimEnd, List.reverse_append, List.dropWhile_append]
  cases hds : ds.reverse.dropWhile isBlank with
  | nil => simp [h]
  | cons d rest => simp

/-- Trimming takes characters away and adds none. -/
theorem mem_of_mem_trimEnd {c : Char} {cs : List Char} (h : c ∈ trimEnd cs) : c ∈ cs :=
  List.mem_reverse.mp ((List.dropWhile_sublist isBlank).subset (List.mem_reverse.mp h))

theorem mem_of_mem_trim {c : Char} {cs : List Char} (h : c ∈ trim cs) : c ∈ cs :=
  (List.dropWhile_sublist isBlank).subset (mem_of_mem_trimEnd h)

theorem isPrefix_trimEnd (cs : List Char) : trimEnd cs <+: cs := by
  have h := (List.dropWhile_suffix isBlank (l := cs.reverse)).reverse
  rwa [List.reverse_reverse] at h

theorem startsBlank_of_isPrefix {cs ds : List Char} (h : cs <+: ds) (hds : startsBlank ds = false) :
    startsBlank cs = false := by
  obtain ⟨rest, rfl⟩ := h
  cases cs with
  | nil => rfl
  | cons c cs => simpa [startsBlank] using hds

theorem startsBlank_trim (cs : List Char) : startsBlank (trim cs) = false :=
  startsBlank_of_isPrefix (isPrefix_trimEnd _) (startsBlank_dropWhile cs)

theorem endsBlank_trim (cs : List Char) : endsBlank (trim cs) = false :=
  endsBlank_trimEnd _

/-- A text that starts with no blank is trimmed at its end only. -/
theorem trim_eq_trimEnd {cs : List Char} (h : startsBlank cs = false) : trim cs = trimEnd cs := by
  rw [trim, (dropWhile_eq_self_iff cs).mpr h]

/-- Blanks around a text are trimmed away with those at its ends. -/
theorem trim_pad {left right : List Char} (hleft : ∀ c ∈ left, isBlank c = true)
    (hright : ∀ c ∈ right, isBlank c = true) (cs : List Char) :
    trim (left ++ cs ++ right) = trim cs := by
  have hend : ∀ ds : List Char, trimEnd (ds ++ right) = trimEnd ds := by
    intro ds
    rw [trimEnd, trimEnd, List.reverse_append, List.dropWhile_append_of_pos]
    exact fun c hc => hright c (List.mem_reverse.mp hc)
  rw [trim, trim, List.append_assoc, List.dropWhile_append_of_pos hleft, List.dropWhile_append]
  split
  · rename_i hempty
    have hcs : cs.dropWhile isBlank = [] := List.isEmpty_iff.mp hempty
    rw [hcs, List.dropWhile_eq_nil_iff.mpr hright]
  · exact hend _

theorem trim_eq_nil {cs : List Char} (h : ∀ c ∈ cs, isBlank c = true) : trim cs = [] := by
  have hpad := trim_pad h (fun _ hc => absurd hc List.not_mem_nil) []
  rwa [List.append_nil, List.append_nil] at hpad

theorem Line.trim {cs : List Char} (h : Line cs) : trim cs = cs := by
  rw [trim_eq_trimEnd h.flush, (trimEnd_eq_self_iff cs).mpr h.trimmed]

/-! ### Lines -/

theorem not_mem_of_mem_lines {cs l : List Char} (h : l ∈ lines cs) : '\n' ∉ l := by
  induction cs generalizing l with
  | nil => cases h
  | cons c cs ih =>
      rw [lines] at h
      split at h
      · rcases List.mem_cons.mp h with rfl | h
        · exact List.not_mem_nil
        · exact ih h
      · rename_i hc
        cases hl : lines cs with
        | nil =>
            rw [hl] at h
            obtain rfl := List.mem_singleton.mp h
            simpa [eq_comm] using hc
        | cons first rest =>
            rw [hl] at h ih
            rcases List.mem_cons.mp h with rfl | h
            · intro hmem
              rcases List.mem_cons.mp hmem with heq | hmem
              · exact hc heq.symm
              · exact ih List.mem_cons_self hmem
            · exact ih (List.mem_cons_of_mem _ h)

theorem lines_append {l : List Char} (h : '\n' ∉ l) (rest : List Char) :
    lines (l ++ '\n' :: rest) = l :: lines rest := by
  induction l with
  | nil => simp [lines]
  | cons c l ih =>
      have hc : c ≠ '\n' := fun heq => h (heq ▸ List.mem_cons_self)
      have hl : '\n' ∉ l := fun hmem => h (List.mem_cons_of_mem _ hmem)
      rw [List.cons_append, lines, if_neg hc, ih hl]

/-- Texts of one line each are the lines of the text that has them one below the other. -/
theorem lines_flatMap {ls : List (List Char)} (h : ∀ l ∈ ls, '\n' ∉ l) :
    lines (ls.flatMap (· ++ ['\n'])) = ls := by
  induction ls with
  | nil => rfl
  | cons l ls ih =>
      rw [List.flatMap_cons, List.append_assoc, List.singleton_append,
        lines_append (h l List.mem_cons_self), ih fun l hl => h l (List.mem_cons_of_mem _ hl)]

/-- The lines are what stands between the line feeds. Only behind the last line feed nothing may
stand, which is then no line. -/
theorem splitOn_eq_lines (cs : List Char) :
    cs.splitOn '\n' = lines cs ∨ cs.splitOn '\n' = lines cs ++ [[]] := by
  induction cs with
  | nil => exact Or.inr rfl
  | cons c cs ih =>
      rw [List.splitOn] at ih ⊢
      rw [List.splitOnP_cons_eq_if_modifyHead, lines]
      by_cases hc : c = '\n'
      · rcases ih with ih | ih
        · left
          simp [hc, ih]
        · right
          simp [hc, ih]
      · have hne := List.splitOnP_ne_nil (· == '\n') cs
        cases hl : lines cs with
        | nil =>
            rw [hl] at ih
            rcases ih with ih | ih
            · exact absurd ih hne
            · left
              simp [hc, ih]
        | cons l ls =>
            rw [hl] at ih
            rcases ih with ih | ih
            · left
              simp [hc, ih]
            · right
              simp [hc, ih]

/-! ### Splitting -/

theorem splitFirst?_append {c : Char} {key : List Char} (h : c ∉ key) (value : List Char) :
    splitFirst? c (key ++ c :: value) = some (key, value) := by
  induction key with
  | nil => simp [splitFirst?]
  | cons x key ih =>
      have hx : x ≠ c := fun heq => h (heq ▸ List.mem_cons_self)
      have hkey : c ∉ key := fun hmem => h (List.mem_cons_of_mem _ hmem)
      rw [List.cons_append, splitFirst?, if_neg hx, ih hkey]
      rfl

theorem splitFirst?_eq_none {c : Char} {cs : List Char} (h : c ∉ cs) :
    splitFirst? c cs = none := by
  induction cs with
  | nil => rfl
  | cons x cs ih =>
      have hx : x ≠ c := fun heq => h (heq ▸ List.mem_cons_self)
      have hcs : c ∉ cs := fun hmem => h (List.mem_cons_of_mem _ hmem)
      rw [splitFirst?, if_neg hx, ih hcs]
      rfl

theorem eq_append_of_splitFirst? {c : Char} {cs l r : List Char}
    (h : splitFirst? c cs = some (l, r)) : cs = l ++ c :: r := by
  induction cs generalizing l with
  | nil => cases h
  | cons x cs ih =>
      rw [splitFirst?] at h
      split at h
      · rename_i hx
        cases h
        rw [hx]
        rfl
      · cases hcs : splitFirst? c cs with
        | none => simp [hcs] at h
        | some parts =>
            rw [hcs] at h
            cases h
            rw [List.cons_append, ← ih hcs]

theorem not_mem_of_splitFirst? {c : Char} {cs l r : List Char}
    (h : splitFirst? c cs = some (l, r)) : c ∉ l := by
  induction cs generalizing l with
  | nil => cases h
  | cons x cs ih =>
      rw [splitFirst?] at h
      split at h
      · cases h
        exact List.not_mem_nil
      · rename_i hx
        cases hcs : splitFirst? c cs with
        | none => simp [hcs] at h
        | some parts =>
            rw [hcs] at h
            cases h
            intro hmem
            rcases List.mem_cons.mp hmem with heq | hmem
            · exact hx heq.symm
            · exact ih hcs hmem

theorem splitLast?_eq_none {c : Char} {cs : List Char} (h : c ∉ cs) : splitLast? c cs = none := by
  induction cs with
  | nil => rfl
  | cons x cs ih =>
      have hx : x ≠ c := fun heq => h (heq ▸ List.mem_cons_self)
      have hcs : c ∉ cs := fun hmem => h (List.mem_cons_of_mem _ hmem)
      rw [splitLast?, ih hcs]
      exact if_neg hx

theorem splitLast?_append {c : Char} {value : List Char} (h : c ∉ value) (key : List Char) :
    splitLast? c (key ++ c :: value) = some (key, value) := by
  induction key with
  | nil =>
      rw [List.nil_append, splitLast?, splitLast?_eq_none h]
      exact if_pos rfl
  | cons x key ih => rw [List.cons_append, splitLast?, ih]

theorem eq_append_of_splitLast? {c : Char} {cs l r : List Char}
    (h : splitLast? c cs = some (l, r)) : cs = l ++ c :: r := by
  induction cs generalizing l r with
  | nil => cases h
  | cons x cs ih =>
      rw [splitLast?] at h
      cases hcs : splitLast? c cs with
      | some parts =>
          rw [hcs] at h
          cases h
          rw [List.cons_append, ← ih hcs]
      | none =>
          simp only [hcs] at h
          split at h
          · rename_i hx
            cases h
            rw [hx]
            rfl
          · cases h

theorem dropStart?_append (start rest : List Char) :
    dropStart? start (start ++ rest) = some rest := by
  induction start with
  | nil => rfl
  | cons c start ih => simp [dropStart?, ih]

theorem eq_append_of_dropStart? {start cs rest : List Char} (h : dropStart? start cs = some rest) :
    cs = start ++ rest := by
  induction start generalizing cs with
  | nil => exact Option.some.inj h
  | cons p start ih =>
      cases cs with
      | nil => cases h
      | cons c cs =>
          rw [dropStart?] at h
          split at h
          · rename_i hp
            rw [ih h, hp]
            rfl
          · cases h

/-! ### Endings -/

theorem endsBlank_append {ds : List Char} (h : ds ≠ []) (cs : List Char) :
    endsBlank (cs ++ ds) = endsBlank ds := by
  rw [endsBlank, endsBlank, List.getLast?_append_of_ne_nil _ h]

theorem Ending.append {cs ds : List Char} (hcs : '\n' ∉ cs) (hds : Ending ds) (hne : ds ≠ []) :
    Ending (cs ++ ds) := by
  refine ⟨fun hmem => ?_, by rw [endsBlank_append hne]; exact hds.trimmed⟩
  rcases List.mem_append.mp hmem with hmem | hmem
  · exact hcs hmem
  · exact hds.oneLine hmem

theorem Line.append {cs ds : List Char} (hcs : Line cs) (hds : Ending ds) : Line (cs ++ ds) := by
  obtain ⟨c, cs, rfl⟩ := List.exists_cons_of_ne_nil hcs.nonempty
  refine ⟨?_, List.cons_ne_nil _ _, hcs.flush⟩
  cases ds with
  | nil => rw [List.append_nil]; exact hcs.toEnding
  | cons d ds => exact hds.append hcs.oneLine (List.cons_ne_nil _ _)

/-- The end of a text ends as the text does. -/
theorem Ending.of_suffix {cs ds : List Char} (h : Ending ds) (hs : cs <:+ ds) : Ending cs := by
  obtain ⟨front, rfl⟩ := hs
  refine ⟨fun hmem => h.oneLine (List.mem_append_right _ hmem), ?_⟩
  cases cs with
  | nil => rfl
  | cons c cs =>
      rw [← endsBlank_append (List.cons_ne_nil c cs) front]
      exact h.trimmed

end Interleave.Text
