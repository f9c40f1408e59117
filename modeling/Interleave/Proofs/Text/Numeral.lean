import Mathlib.Data.List.Basic
import Mathlib.Data.Nat.Digits.Defs
import Mathlib.Tactic.Ring
import Interleave.Proofs.Text.Lines
import Interleave.Text.Numeral

/-!
# Laws of numerals

Reading the decimal numeral of a number gives the number back (`natural?_decimal`,
`unsigned?_decimal`), and what is read is below the bound (`lt_of_unsigned?`). A numeral consists of
digits, of which none is blank. The texts that are read at all are exactly the `Numeral`s: a sign is
optional, leading zeros are allowed, and only the bound can refuse one (`unsigned?_eq_some_iff`).
-/

namespace Interleave.Text

/-- Whether a character is a decimal digit. -/
def isDigit (c : Char) : Bool :=
  (digitValue? c).isSome

theorem digitValue?_digit {n : Nat} (h : n < 10) : digitValue? (digit n) = some n := by
  have hall : ∀ m < 10, digitValue? (digit m) = some m := by decide
  exact hall n h

theorem appendDigits?_append (value : Nat) (cs ds : List Char) :
    appendDigits? value (cs ++ ds) = (appendDigits? value cs).bind (appendDigits? · ds) := by
  induction cs generalizing value with
  | nil => rfl
  | cons c cs ih =>
      rw [List.cons_append, appendDigits?, appendDigits?]
      cases digitValue? c with
      | none => rfl
      | some d => exact ih _

theorem appendDigits?_decimal (n : Nat) : appendDigits? 0 (decimal n) = some n := by
  induction n using decimal.induct with
  | case1 n h => rw [decimal, if_pos h]; simp [appendDigits?, digitValue?_digit h]
  | case2 n h ih =>
      have hlast : digitValue? (digit (n % 10)) = some (n % 10) :=
        digitValue?_digit (Nat.mod_lt n (by decide))
      have hsum : 10 * (n / 10) + n % 10 = n := Nat.div_add_mod n 10
      rw [decimal, if_neg h, appendDigits?_append, ih]
      simp [appendDigits?, hlast, hsum]

theorem decimal_ne_nil (n : Nat) : decimal n ≠ [] := by
  rw [decimal]
  split
  · exact List.cons_ne_nil _ _
  · exact List.append_ne_nil_of_right_ne_nil _ (List.cons_ne_nil _ _)

/-- Only the numeral of zero starts with the digit zero. -/
theorem eq_zero_of_decimal_eq_cons {n : Nat} {ds : List Char} (h : decimal n = '0' :: ds) :
    n = 0 ∧ ds = [] := by
  induction n using decimal.induct generalizing ds with
  | case1 n hn =>
      have hzero : ∀ m < 10, digit m = '0' → m = 0 := by decide
      rw [decimal, if_pos hn] at h
      obtain ⟨hdigit, hds⟩ := List.cons.inj h
      exact ⟨hzero n hn hdigit, hds.symm⟩
  | case2 n hn ih =>
      rw [decimal, if_neg hn] at h
      obtain ⟨c, cs, hcs⟩ := List.exists_cons_of_ne_nil (decimal_ne_nil (n / 10))
      have hfront : decimal (n / 10) = '0' :: cs := by
        rw [hcs, List.cons_append] at h
        rw [hcs, (List.cons.inj h).1]
      have := (ih hfront).1
      omega

theorem natural?_decimal (n : Nat) : natural? (decimal n) = some n := by
  have h := appendDigits?_decimal n
  cases hd : decimal n with
  | nil => exact absurd hd (decimal_ne_nil n)
  | cons c cs =>
      rw [hd] at h
      exact h

theorem isDigit_of_mem_decimal {n : Nat} {c : Char} (h : c ∈ decimal n) : isDigit c = true := by
  induction n using decimal.induct with
  | case1 n hn =>
      rw [decimal, if_pos hn, List.mem_singleton] at h
      rw [h, isDigit, digitValue?_digit hn]
      rfl
  | case2 n hn ih =>
      rw [decimal, if_neg hn, List.mem_append, List.mem_singleton] at h
      rcases h with h | rfl
      · exact ih h
      · rw [isDigit, digitValue?_digit (Nat.mod_lt n (by decide))]
        rfl

theorem toNat_of_isDigit {c : Char} (h : isDigit c = true) : 48 ≤ c.toNat ∧ c.toNat ≤ 57 := by
  rw [isDigit, digitValue?] at h
  split at h
  · assumption
  · cases h

theorem isBlank_of_isDigit {c : Char} (h : isDigit c = true) : isBlank c = false := by
  have := toNat_of_isDigit h
  simp only [isBlank, Bool.or_eq_false_iff, Bool.and_eq_false_iff, beq_eq_false_iff_ne,
    decide_eq_false_iff_not]
  omega

theorem ne_of_isDigit {c d : Char} (hd : isDigit d = false) (hc : isDigit c = true) : c ≠ d := by
  rintro rfl
  rw [hc] at hd
  cases hd

theorem ending_decimal (n : Nat) : Ending (decimal n) := by
  refine ⟨fun h => ne_of_isDigit (by decide) (isDigit_of_mem_decimal h) rfl, ?_⟩
  cases hl : (decimal n).getLast? with
  | none => simp [endsBlank, hl]
  | some c =>
      have hc : isBlank c = false :=
        isBlank_of_isDigit (isDigit_of_mem_decimal (List.mem_of_getLast? hl))
      simp [endsBlank, hl, hc]

theorem unsigned?_decimal {bound n : Nat} (h : n < bound) :
    unsigned? bound (decimal n) = some n := by
  have hread := natural?_decimal n
  unfold unsigned?
  split
  · rename_i rest hplus
    have hmem : '+' ∈ decimal n := by rw [hplus]; exact List.mem_cons_self
    exact absurd rfl (ne_of_isDigit (by decide) (isDigit_of_mem_decimal hmem))
  · simp [hread, Option.filter, h]

theorem lt_of_unsigned? {bound n : Nat} {cs : List Char} (h : unsigned? bound cs = some n) :
    n < bound := by
  have hfilter := (Option.filter_eq_some_iff.mp h).2
  exact of_decide_eq_true hfilter

/-! ### The texts that are read -/

/-- The number that decimal digits denote. -/
def digitsValue (ds : List Char) : Nat :=
  Nat.ofDigits 10 (ds.reverse.map fun c => c.toNat - '0'.toNat)

/-- A numeral of a number: at least one decimal digit, behind an optional plus sign. -/
def Numeral (cs : List Char) (n : Nat) : Prop :=
  ∃ ds, (cs = ds ∨ cs = '+' :: ds) ∧ ds ≠ [] ∧ (∀ c ∈ ds, c.isDigit = true) ∧ digitsValue ds = n

theorem not_forall_isDigit_plus (ds : List Char) : ¬ ∀ c ∈ '+' :: ds, c.isDigit = true := by
  intro h
  exact absurd (h '+' List.mem_cons_self) (by decide)

/-- A text is a numeral of one number at most. -/
theorem Numeral.unique {cs : List Char} {m n : Nat} (hm : Numeral cs m) (hn : Numeral cs n) :
    m = n := by
  obtain ⟨ds, hcs, -, hdigits, rfl⟩ := hm
  obtain ⟨ds', hcs', -, hdigits', rfl⟩ := hn
  rcases hcs with rfl | rfl
  · rcases hcs' with rfl | rfl
    · rfl
    · exact absurd hdigits (not_forall_isDigit_plus ds')
  · rcases hcs' with rfl | hcs'
    · exact absurd hdigits' (not_forall_isDigit_plus ds)
    · rw [(List.cons.inj hcs').2]

theorem digitsValue_cons (c : Char) (ds : List Char) :
    digitsValue (c :: ds) = (c.toNat - '0'.toNat) * 10 ^ ds.length + digitsValue ds := by
  simp only [digitsValue, List.reverse_cons, List.map_append, List.map_cons, List.map_nil,
    Nat.ofDigits_append, Nat.ofDigits_singleton, List.length_map, List.length_reverse]
  rw [Nat.add_comm, Nat.mul_comm]

theorem digitValue?_eq_some_iff {c : Char} {v : Nat} :
    digitValue? c = some v ↔ c.isDigit = true ∧ v = c.toNat - '0'.toNat := by
  have hdigit : c.isDigit = true ↔ 48 ≤ c.toNat ∧ c.toNat ≤ 57 := by
    simp only [Char.isDigit, Bool.and_eq_true, decide_eq_true_eq]
    exact Iff.rfl
  rw [hdigit, digitValue?]
  split
  · rename_i h
    simp only [h, and_self, true_and, Option.some.injEq]
    exact eq_comm
  · rename_i h
    simp [h]

/-- A run of digits is read behind the value of the digits in front of it. -/
theorem appendDigits?_eq_some_iff {value n : Nat} {cs : List Char} :
    appendDigits? value cs = some n ↔
      (∀ c ∈ cs, c.isDigit = true) ∧ n = value * 10 ^ cs.length + digitsValue cs := by
  induction cs generalizing value with
  | nil =>
      simp only [appendDigits?, Option.some.injEq, List.not_mem_nil, false_imp_iff, implies_true,
        true_and, List.length_nil, pow_zero, mul_one]
      exact eq_comm
  | cons c cs ih =>
      simp only [appendDigits?, Option.bind_eq_bind, Option.bind_eq_some_iff,
        digitValue?_eq_some_iff, ih, List.forall_mem_cons, digitsValue_cons, List.length_cons,
        Nat.pow_succ]
      constructor
      · rintro ⟨v, ⟨hc, rfl⟩, hcs, rfl⟩
        exact ⟨⟨hc, hcs⟩, by ring⟩
      · rintro ⟨⟨hc, hcs⟩, rfl⟩
        exact ⟨_, ⟨hc, rfl⟩, hcs, by ring⟩

theorem natural?_eq_some_iff {cs : List Char} {n : Nat} :
    natural? cs = some n ↔ cs ≠ [] ∧ (∀ c ∈ cs, c.isDigit = true) ∧ digitsValue cs = n := by
  cases cs with
  | nil => simp [natural?]
  | cons c cs =>
      simp only [natural?, appendDigits?_eq_some_iff, Nat.zero_mul, Nat.zero_add, ne_eq,
        reduceCtorEq, not_false_eq_true, true_and]
      exact and_congr_right fun _ => eq_comm

/-- The reader accepts exactly the numerals of the numbers below its bound. -/
theorem unsigned?_eq_some_iff {bound n : Nat} {cs : List Char} :
    unsigned? bound cs = some n ↔ Numeral cs n ∧ n < bound := by
  simp only [unsigned?, Option.filter_eq_some_iff, natural?_eq_some_iff, decide_eq_true_eq]
  refine and_congr_left fun _ => ?_
  split
  · rename_i rest
    constructor
    · rintro h
      exact ⟨rest, Or.inr rfl, h⟩
    · rintro ⟨ds, rfl | heq, hds⟩
      · exact absurd hds.2.1 (not_forall_isDigit_plus rest)
      · obtain rfl := (List.cons.inj heq).2
        exact hds
  · rename_i hnot
    constructor
    · intro h
      exact ⟨cs, Or.inl rfl, h⟩
    · rintro ⟨ds, rfl | rfl, hds⟩
      · exact hds
      · exact absurd rfl (hnot ds)

end Interleave.Text
