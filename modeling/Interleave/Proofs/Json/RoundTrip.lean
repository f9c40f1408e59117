import Mathlib.Data.List.DropRight
import Interleave.Json.Parser
import Interleave.Json.Printer
import Interleave.Proofs.Text.Numeral

/-!
# Reading back what was written

A value is `Plain` if its numbers are natural and all its strings have a text. `Json.parse?` reads
both layouts of a plain value as that value (`Plain.parse?_compact`, `Plain.parse?_pretty`). That a
text reads as a value is stated for any fuel of twice its length and for what may stand behind it
(`Reads`). The two layouts differ in their blanks only, and those are left open where the reader
is followed through brackets and separators (`ReadItems`, `ReadFields`).
-/

namespace Interleave.Json

/-- A value whose text denotes it. -/
inductive Plain : Json → Prop where
  | null : Plain .null
  | bool (b : Bool) : Plain (.bool b)
  | natural (n : Nat) : Plain (.natural n)
  | text (s : String) : Plain (.text s)
  | array (items : List Json) (h : ∀ j ∈ items, Plain j) : Plain (.array items)
  | object (fields : List (Option String × Json))
      (named : ∀ f ∈ fields, f.1.isSome) (h : ∀ f ∈ fields, Plain f.2) : Plain (.object fields)

/-- A text that does not go on with a number that stands before it. -/
def Ends (rest : List Char) : Prop :=
  ∀ c ∈ rest.head?, (Text.digitValue? c).isSome = false ∧ c ≠ '.' ∧ c ≠ 'e' ∧ c ≠ 'E'

theorem ends_nil : Ends [] := by
  intro c hc
  cases hc

theorem ends_cons {c : Char}
    (h : (Text.digitValue? c).isSome = false ∧ c ≠ '.' ∧ c ≠ 'e' ∧ c ≠ 'E') (rest : List Char) :
    Ends (c :: rest) := by
  intro d hd
  obtain rfl := Option.some.inj hd
  exact h

/-- The blanks between two tokens. -/
def Blanks (b : List Char) : Prop :=
  ∀ c ∈ b, isSpace c = true

theorem Blanks.nil : Blanks [] :=
  fun _ hc => by cases hc

theorem blanks_newline (level : Nat) : Blanks (newline level) := by
  intro c hc
  rcases List.mem_cons.mp hc with rfl | hc
  · rfl
  · rw [List.eq_of_mem_replicate hc]
    rfl

/-- Blanks end a number. -/
theorem Blanks.ends_append {b rest : List Char} (hb : Blanks b) (h : Ends rest) :
    Ends (b ++ rest) := by
  cases b with
  | nil => exact h
  | cons c b =>
      have hc := hb c List.mem_cons_self
      simp only [isSpace, Bool.or_eq_true, beq_iff_eq] at hc
      rcases hc with ((rfl | rfl) | rfl) | rfl <;> exact ends_cons (by decide) _

/-! ### Strings -/

theorem hexValue?_digit {n : Nat} (h : n < 16) : hexValue? (Text.digit n) = some n := by
  have hall : ∀ m < 16, hexValue? (Text.digit m) = some m := by decide
  exact hall n h

/-- Four hexadecimal digits of a unit denote the unit. -/
theorem exists_unit?_hexadecimal {n : Nat} (h : n < 65536) :
    ∃ a b c d, Text.hexadecimal 4 n = [a, b, c, d] ∧ unit? a b c d = some n := by
  refine ⟨Text.digit (n / 16 / 16 / 16 % 16), Text.digit (n / 16 / 16 % 16),
    Text.digit (n / 16 % 16), Text.digit (n % 16), rfl, ?_⟩
  rw [unit?, hexValue?_digit (Nat.mod_lt _ (by decide)), hexValue?_digit (Nat.mod_lt _ (by decide)),
    hexValue?_digit (Nat.mod_lt _ (by decide)), hexValue?_digit (Nat.mod_lt _ (by decide))]
  simp only [Option.bind_eq_bind, Option.bind_some, Option.pure_def, Option.some.injEq]
  omega

/-- One written character is read as that character. -/
theorem stringBody_escapeChar (chars : List Char) (c : Char) (rest : List Char) :
    stringBody ⟨chars, none, true⟩ (escapeChar c ++ rest) =
      stringBody ⟨c :: chars, none, true⟩ rest := by
  unfold escapeChar
  split
  · rfl
  · rfl
  · rfl
  · rfl
  · rfl
  · rfl
  · rfl
  · split
    · rename_i hcontrol
      obtain ⟨x, y, z, w, hex, hunit⟩ := exists_unit?_hexadecimal (n := c.toNat) (by omega)
      have hchar : Char.ofNat c.toNat = c := Char.ofNat_toNat c
      have hpush : PartialText.pushUnit ⟨chars, none, true⟩ c.toNat = ⟨c :: chars, none, true⟩ := by
        rw [PartialText.pushUnit, if_neg (by omega), if_neg (by omega), hchar]
        rfl
      rw [hex]
      show (unit? x y z w).bind _ = _
      rw [hunit, Option.bind_some, hpush]
      rfl
    · rename_i hquote hslash _ _ _ _ _ hcontrol
      rw [List.singleton_append, stringBody]
      · rw [if_neg (not_or.mpr ⟨hslash, hcontrol⟩)]
        rfl
      · exact hquote
      · exact fun _ _ _ _ _ h _ => hslash h
      · exact fun _ _ h _ => hslash h

theorem stringBody_flatMap (chars s rest : List Char) :
    stringBody ⟨chars, none, true⟩ (s.flatMap escapeChar ++ '"' :: rest) =
      some (some (String.ofList (chars.reverse ++ s)), rest) := by
  induction s generalizing chars with
  | nil => simp [stringBody, PartialText.finish]
  | cons c s ih =>
      rw [List.flatMap_cons, List.append_assoc, stringBody_escapeChar, ih, List.reverse_cons,
        List.append_assoc]
      rfl

/-- What follows the opening quote of a written string is read as the string. -/
theorem stringBody_quote (s : String) (rest : List Char) :
    stringBody .empty (s.toList.flatMap escapeChar ++ '"' :: rest) = some (some s, rest) := by
  have h := stringBody_flatMap [] s.toList rest
  rw [List.reverse_nil, List.nil_append, String.ofList_toList] at h
  exact h

/-! ### Numbers -/

theorem digits_decimal (n : Nat) {rest : List Char} (h : Ends rest) :
    digits (Text.decimal n ++ rest) = (Text.decimal n, rest) := by
  have hall : ∀ c ∈ Text.decimal n, (Text.digitValue? c).isSome = true :=
    fun c hc => Text.isDigit_of_mem_decimal hc
  have hstop : rest.takeWhile (fun c => (Text.digitValue? c).isSome) = [] ∧
      rest.dropWhile (fun c => (Text.digitValue? c).isSome) = rest := by
    cases rest with
    | nil => exact ⟨rfl, rfl⟩
    | cons c rest => simp [(h c rfl).1]
  rw [digits, List.takeWhile_append_of_pos hall, List.dropWhile_append_of_pos hall, hstop.1,
    hstop.2, List.append_nil]

theorem fraction?_of_ends {rest : List Char} (h : Ends rest) :
    fraction? rest = some ([], rest) := by
  unfold fraction?
  split
  · exact absurd rfl (h _ rfl).2.1
  · rfl

theorem exponent?_of_ends {rest : List Char} (h : Ends rest) :
    exponent? rest = some ([], rest) := by
  cases rest with
  | nil => rfl
  | cons c rest =>
      obtain ⟨-, -, hlower, hupper⟩ := h c rfl
      exact if_neg (not_or.mpr ⟨hlower, hupper⟩)

theorem number?_decimal (n : Nat) {rest : List Char} (h : Ends rest) :
    number? (Text.decimal n ++ rest) = some (.natural n, rest) := by
  obtain ⟨c, ds, hcs⟩ := List.exists_cons_of_ne_nil (Text.decimal_ne_nil n)
  have hdigits := digits_decimal n h
  have hread := Text.natural?_decimal n
  have hc : c ≠ '-' := Text.ne_of_isDigit (by decide)
    (Text.isDigit_of_mem_decimal (n := n) (by rw [hcs]; exact List.mem_cons_self))
  rw [hcs] at hdigits hread ⊢
  unfold number?
  split
  rename_i sign cs hsign
  split at hsign
  · rename_i hminus
    exact absurd (List.cons.inj hminus).1 hc
  obtain ⟨rfl, rfl⟩ := Prod.mk.inj hsign
  split
  · -- a zero that starts a numeral is the whole numeral
    rename_i hzero
    obtain ⟨rfl, htail⟩ := List.cons.inj hzero
    obtain ⟨rfl, rfl⟩ := Text.eq_zero_of_decimal_eq_cons hcs
    obtain rfl := htail
    simp [fraction?_of_ends h, exponent?_of_ends h, hread]
  · rw [hdigits]
    simp [fraction?_of_ends h, exponent?_of_ends h, hread]

/-! ### Blanks before a token -/

theorem skip_cons {c : Char} (h : isSpace c = false) (cs : List Char) :
    skip (c :: cs) = c :: cs := by
  rw [skip, List.dropWhile_cons, h]
  rfl

theorem skip_skip (cs : List Char) : skip (skip cs) = skip cs :=
  List.dropWhile_idempotent ..

theorem Blanks.skip_append {b : List Char} (hb : Blanks b) (cs : List Char) :
    skip (b ++ cs) = skip cs :=
  List.dropWhile_append_of_pos hb

theorem value?_skip (fuel : Nat) (cs : List Char) : value? fuel (skip cs) = value? fuel cs := by
  cases fuel with
  | zero => rfl
  | succ fuel => rw [value?, value?, skip_skip]

theorem items?_skip (fuel : Nat) (cs : List Char) : items? fuel (skip cs) = items? fuel cs := by
  cases fuel with
  | zero => rfl
  | succ fuel => rw [items?, items?, value?_skip]

theorem fields?_skip (fuel : Nat) (cs : List Char) : fields? fuel (skip cs) = fields? fuel cs := by
  cases fuel with
  | zero => rfl
  | succ fuel => rw [fields?, fields?, skip_skip]

/-- Blanks before a value are passed over. -/
theorem Blanks.value?_append {b : List Char} (hb : Blanks b) (fuel : Nat) (cs : List Char) :
    value? fuel (b ++ cs) = value? fuel cs := by
  rw [← value?_skip, hb.skip_append, value?_skip]

/-- Blanks before the name of a field are passed over. -/
theorem Blanks.fields?_append {b : List Char} (hb : Blanks b) (fuel : Nat) (cs : List Char) :
    fields? fuel (b ++ cs) = fields? fuel cs := by
  rw [← fields?_skip, hb.skip_append, fields?_skip]

/-! ### Values -/

theorem isSpace_of_isDigit {c : Char} (h : Text.isDigit c = true) : isSpace c = false := by
  have hrange := Text.toNat_of_isDigit h
  have hne : ∀ d : Char, d.toNat < 48 → (c == d) = false := by
    intro d hd
    rw [beq_eq_false_iff_ne]
    rintro rfl
    omega
  rw [isSpace, hne _ (by decide), hne _ (by decide), hne _ (by decide), hne _ (by decide)]
  rfl

/-- What starts with a digit is read as a number. -/
theorem value?_of_isDigit {c : Char} (hc : Text.isDigit c = true) (fuel : Nat) (cs : List Char) :
    value? (fuel + 1) (c :: cs) = number? (c :: cs) := by
  rw [value?, skip_cons (isSpace_of_isDigit hc)]
  split
  · rename_i h; rw [(List.cons.inj h).1] at hc; cases hc
  · rename_i h; rw [(List.cons.inj h).1] at hc; cases hc
  · rename_i h; rw [(List.cons.inj h).1] at hc; cases hc
  · rename_i h; rw [(List.cons.inj h).1] at hc; cases hc
  · rename_i h; rw [(List.cons.inj h).1] at hc; cases hc
  · rename_i h; rw [(List.cons.inj h).1] at hc; cases hc
  · rfl

theorem value?_quote (s : String) (fuel : Nat) (rest : List Char) :
    value? (fuel + 1) (quote s ++ rest) = some (.text s, rest) := by
  have hbody := stringBody_quote s rest
  rw [quote, List.cons_append, List.cons_append, List.append_assoc, List.singleton_append]
  show (stringBody .empty _).bind _ = _
  rw [hbody]
  rfl

theorem items?_bracket (fuel : Nat) (cs : List Char) : items? fuel (']' :: cs) = none := by
  match fuel with
  | 0 => rfl
  | 1 => rfl
  | fuel + 2 => rfl

theorem fields?_brace (fuel : Nat) (cs : List Char) : fields? fuel ('\x7d' :: cs) = none := by
  cases fuel with
  | zero => rfl
  | succ fuel => rfl

/-- Behind the opening bracket of a nonempty array stand its items. -/
theorem value?_bracket {fuel : Nat} {cs rest : List Char} {items : List Json}
    (h : items? fuel cs = some (items, rest)) :
    value? (fuel + 1) ('[' :: cs) = some (.array items, rest) := by
  rw [← items?_skip] at h
  rw [value?, skip_cons (c := '[') rfl]
  simp only []
  split
  · -- no item starts with the bracket
    rename_i hclose
    rw [hclose, items?_bracket] at h
    cases h
  · rw [h]
    rfl

/-- Behind the opening brace of a nonempty object stand its fields. -/
theorem value?_brace {fuel : Nat} {cs rest : List Char} {fields : List (Option String × Json)}
    (h : fields? fuel cs = some (fields, rest)) :
    value? (fuel + 1) ('\x7b' :: cs) = some (.object fields, rest) := by
  rw [← fields?_skip] at h
  rw [value?, skip_cons (c := '\x7b') rfl]
  simp only []
  split
  · -- no field starts with the brace
    rename_i hclose
    rw [hclose, fields?_brace] at h
    cases h
  · rw [h]
    rfl

/-- The name of a field and its colon are read, then its value, then what follows it. -/
theorem fields?_quote (s : String) (fuel : Nat) (cs : List Char) :
    fields? (fuel + 1) (quote s ++ ':' :: cs) =
      (value? fuel cs).bind fun (j, rest) =>
        match skip rest with
        | ',' :: rest => (fields? fuel rest).map fun (fs, rest) => ((some s, j) :: fs, rest)
        | '\x7d' :: rest => some ([(some s, j)], rest)
        | _ => none := by
  have hbody := stringBody_quote s (':' :: cs)
  rw [quote, List.cons_append, List.cons_append, List.append_assoc, List.singleton_append,
    fields?, skip_cons (c := '"') rfl]
  simp only [hbody, Option.bind_eq_bind, Option.bind_some]
  rw [skip_cons (c := ':') rfl]
  simp only [Option.map_eq_bind]
  rfl

/-! ### Texts that read as a value -/

/-- Reading the text `cs`, with more behind it that ends a number, gives `j`. -/
def Reads (cs : List Char) (j : Json) : Prop :=
  ∀ fuel rest, 2 * cs.length ≤ fuel → Ends rest → value? fuel (cs ++ rest) = some (j, rest)

/-- The fuel that the length of a text allows is never none at all. -/
theorem reads_of_succ {cs : List Char} {j : Json} (hne : cs ≠ [])
    (h : ∀ fuel rest, 2 * cs.length ≤ fuel + 1 → Ends rest →
      value? (fuel + 1) (cs ++ rest) = some (j, rest)) : Reads cs j := by
  intro fuel rest hfuel hrest
  have hlength := List.length_pos_of_ne_nil hne
  obtain ⟨fuel, rfl⟩ := Nat.exists_eq_add_one_of_ne_zero (n := fuel) (by omega)
  exact h fuel rest hfuel hrest

theorem reads_null : Reads "null".toList .null :=
  reads_of_succ (by decide) fun _ _ _ _ => rfl

theorem reads_true : Reads "true".toList (.bool true) :=
  reads_of_succ (by decide) fun _ _ _ _ => rfl

theorem reads_false : Reads "false".toList (.bool false) :=
  reads_of_succ (by decide) fun _ _ _ _ => rfl

theorem reads_decimal (n : Nat) : Reads (Text.decimal n) (.natural n) := by
  refine reads_of_succ (Text.decimal_ne_nil n) fun fuel rest _ hrest => ?_
  have hnumber := number?_decimal n hrest
  obtain ⟨c, cs, hcs⟩ := List.exists_cons_of_ne_nil (Text.decimal_ne_nil n)
  have hc : Text.isDigit c = true :=
    Text.isDigit_of_mem_decimal (by rw [hcs]; exact List.mem_cons_self)
  rw [hcs] at hnumber ⊢
  rw [List.cons_append, value?_of_isDigit hc]
  exact hnumber

theorem reads_quote (s : String) : Reads (quote s) (.text s) :=
  reads_of_succ (List.cons_ne_nil _ _) fun fuel rest _ _ => value?_quote s fuel rest

theorem reads_noItems : Reads ['[', ']'] (.array []) :=
  reads_of_succ (List.cons_ne_nil _ _) fun _ _ _ _ => rfl

theorem reads_noFields : Reads ['\x7b', '\x7d'] (.object []) :=
  reads_of_succ (List.cons_ne_nil _ _) fun _ _ _ _ => rfl

/-- Texts that read as the items of an array, each behind blanks, with commas between them. -/
inductive ReadItems : List Char → List Json → Prop where
  | last {b cs : List Char} {j : Json} (hb : Blanks b) (h : Reads cs j) : ReadItems (b ++ cs) [j]
  | more {b cs rest : List Char} {j : Json} {items : List Json} (hb : Blanks b) (h : Reads cs j)
      (hrest : ReadItems rest items) : ReadItems (b ++ (cs ++ ',' :: rest)) (j :: items)

theorem ReadItems.items?_eq {cs : List Char} {items : List Json} (h : ReadItems cs items)
    {b : List Char} (hb : Blanks b) (rest : List Char) {fuel : Nat} (hfuel : 2 * cs.length < fuel) :
    items? fuel (cs ++ (b ++ ']' :: rest)) = some (items, rest) := by
  induction h generalizing fuel with
  | @last before cs j hbefore hread =>
      -- the last item is followed by blanks and the bracket
      obtain ⟨fuel, rfl⟩ := Nat.exists_eq_add_one_of_ne_zero (Nat.ne_zero_of_lt hfuel)
      rw [List.length_append] at hfuel
      have hvalue := hread fuel (b ++ ']' :: rest) (by omega)
        (hb.ends_append (ends_cons (by decide) rest))
      rw [List.append_assoc, items?, hbefore.value?_append, hvalue]
      simp only [Option.bind_eq_bind, Option.bind_some]
      rw [hb.skip_append, skip_cons (c := ']') rfl]
      rfl
  | @more before cs text j items hbefore hread hmore ih =>
      obtain ⟨fuel, rfl⟩ := Nat.exists_eq_add_one_of_ne_zero (Nat.ne_zero_of_lt hfuel)
      rw [List.length_append, List.length_append, List.length_cons] at hfuel
      have hvalue := hread fuel (',' :: (text ++ (b ++ ']' :: rest))) (by omega)
        (ends_cons (by decide) _)
      have hlt : 2 * text.length < fuel := by omega
      have hitems := ih hlt
      rw [List.append_assoc, List.append_assoc, List.cons_append, items?, hbefore.value?_append,
        hvalue]
      simp only [Option.bind_eq_bind, Option.bind_some]
      rw [skip_cons (c := ',') rfl]
      simp only [hitems, Option.bind_some]
      rfl

/-- An array reads as its items. -/
theorem ReadItems.reads {cs : List Char} {items : List Json} (h : ReadItems cs items)
    {b : List Char} (hb : Blanks b) : Reads ('[' :: cs ++ b ++ [']']) (.array items) := by
  refine reads_of_succ (List.cons_ne_nil _ _) fun fuel rest hfuel _ => ?_
  simp only [List.length_append, List.length_cons] at hfuel
  have hlt : 2 * cs.length < fuel := by omega
  have hitems := h.items?_eq hb rest hlt
  rw [List.append_assoc, List.append_assoc, List.cons_append, List.singleton_append]
  exact value?_bracket hitems

/-- Texts that read as the fields of an object, each behind blanks, with blanks before its value
and commas between the fields. -/
inductive ReadFields : List Char → List (Option String × Json) → Prop where
  | last {b v cs : List Char} {name : String} {j : Json} (hb : Blanks b) (hv : Blanks v)
      (h : Reads cs j) : ReadFields (b ++ (quote name ++ ':' :: (v ++ cs))) [(some name, j)]
  | more {b v cs rest : List Char} {name : String} {j : Json} {fields : List (Option String × Json)}
      (hb : Blanks b) (hv : Blanks v) (h : Reads cs j) (hrest : ReadFields rest fields) :
      ReadFields (b ++ (quote name ++ ':' :: (v ++ (cs ++ ',' :: rest)))) ((some name, j) :: fields)

theorem ReadFields.fields?_eq {cs : List Char} {fields : List (Option String × Json)}
    (h : ReadFields cs fields) {b : List Char} (hb : Blanks b) (rest : List Char) {fuel : Nat}
    (hfuel : 2 * cs.length < fuel) :
    fields? fuel (cs ++ (b ++ '\x7d' :: rest)) = some (fields, rest) := by
  induction h generalizing fuel with
  | @last before v cs name j hbefore hv hread =>
      obtain ⟨fuel, rfl⟩ := Nat.exists_eq_add_one_of_ne_zero (Nat.ne_zero_of_lt hfuel)
      simp only [List.length_append, List.length_cons] at hfuel
      have hvalue := hread fuel (b ++ '\x7d' :: rest) (by omega)
        (hb.ends_append (ends_cons (by decide) rest))
      rw [List.append_assoc, List.append_assoc, List.cons_append, List.append_assoc,
        hbefore.fields?_append, fields?_quote, hv.value?_append, hvalue, Option.bind_some]
      simp only []
      rw [hb.skip_append, skip_cons (c := '\x7d') rfl]
      rfl
  | @more before v cs text name j fields hbefore hv hread hmore ih =>
      obtain ⟨fuel, rfl⟩ := Nat.exists_eq_add_one_of_ne_zero (Nat.ne_zero_of_lt hfuel)
      simp only [List.length_append, List.length_cons] at hfuel
      have hvalue := hread fuel (',' :: (text ++ (b ++ '\x7d' :: rest))) (by omega)
        (ends_cons (by decide) _)
      have hlt : 2 * text.length < fuel := by omega
      have hfields := ih hlt
      rw [List.append_assoc, List.append_assoc, List.cons_append, List.append_assoc,
        List.append_assoc, List.cons_append, hbefore.fields?_append, fields?_quote,
        hv.value?_append, hvalue, Option.bind_some]
      simp only []
      rw [skip_cons (c := ',') rfl]
      simp only [hfields, Option.map_some]

/-- An object reads as its fields. -/
theorem ReadFields.reads {cs : List Char} {fields : List (Option String × Json)}
    (h : ReadFields cs fields) {b : List Char} (hb : Blanks b) :
    Reads ('\x7b' :: cs ++ b ++ ['\x7d']) (.object fields) := by
  refine reads_of_succ (List.cons_ne_nil _ _) fun fuel rest hfuel _ => ?_
  simp only [List.length_append, List.length_cons] at hfuel
  have hlt : 2 * cs.length < fuel := by omega
  have hfields := h.fields?_eq hb rest hlt
  rw [List.append_assoc, List.append_assoc, List.cons_append, List.singleton_append]
  exact value?_brace hfields

/-- A text that reads as a value denotes it. -/
theorem Reads.parse?_eq {cs : List Char} {j : Json} (h : Reads cs j) :
    parse? (String.ofList cs) = some j := by
  have hvalue := h (2 * cs.length + 2) [] (by omega) ends_nil
  rw [List.append_nil] at hvalue
  rw [parse?, String.toList_ofList]
  simp only [hvalue]
  rfl

/-! ### The layout without blanks -/

theorem readItems_compactItems {items : List Json} (hne : items ≠ [])
    (h : ∀ j ∈ items, Reads (compactChars j) j) : ReadItems (compactItems items) items := by
  induction items with
  | nil => exact absurd rfl hne
  | cons j items ih =>
      have hj := h j List.mem_cons_self
      cases items with
      | nil => exact .last .nil hj
      | cons k items =>
          have hrest := ih (List.cons_ne_nil _ _) fun x hx => h x (List.mem_cons_of_mem _ hx)
          rw [compactItems]
          · exact .more .nil hj hrest
          · exact List.cons_ne_nil _ _

theorem readFields_compactFields {fields : List (Option String × Json)} (hne : fields ≠ [])
    (named : ∀ f ∈ fields, f.1.isSome) (h : ∀ f ∈ fields, Reads (compactChars f.2) f.2) :
    ReadFields (compactFields fields) fields := by
  induction fields with
  | nil => exact absurd rfl hne
  | cons f fields ih =>
      obtain ⟨name, j⟩ := f
      obtain ⟨name, rfl⟩ := Option.isSome_iff_exists.mp (named _ List.mem_cons_self)
      have hj : Reads (compactChars j) j := h (some name, j) List.mem_cons_self
      cases fields with
      | nil => exact .last .nil .nil hj
      | cons g fields =>
          have hrest := ih (List.cons_ne_nil _ _) (fun x hx => named x (List.mem_cons_of_mem _ hx))
            fun x hx => h x (List.mem_cons_of_mem _ hx)
          rw [compactFields, List.append_assoc, List.cons_append]
          · exact .more .nil .nil hj hrest
          · exact List.cons_ne_nil _ _

theorem Plain.reads_compactChars {j : Json} (h : Plain j) : Reads (compactChars j) j := by
  induction h with
  | null => exact reads_null
  | bool b =>
      cases b with
      | false => exact reads_false
      | true => exact reads_true
  | natural n => exact reads_decimal n
  | text s => exact reads_quote s
  | array items _ ih =>
      cases items with
      | nil => exact reads_noItems
      | cons j items =>
          have hread := (readItems_compactItems (List.cons_ne_nil j items) ih).reads .nil
          rw [List.append_nil] at hread
          exact hread
  | object fields named _ ih =>
      cases fields with
      | nil => exact reads_noFields
      | cons f fields =>
          have hread := (readFields_compactFields (List.cons_ne_nil f fields) named ih).reads .nil
          rw [List.append_nil] at hread
          exact hread

/-- The compact text of a plain value denotes it. -/
theorem Plain.parse?_compact {j : Json} (h : Plain j) : parse? (compact j) = some j :=
  h.reads_compactChars.parse?_eq

/-! ### The indented layout -/

theorem readItems_prettyItems {level : Nat} {items : List Json} (hne : items ≠ [])
    (h : ∀ j ∈ items, Reads (prettyChars level j) j) :
    ReadItems (prettyItems level items) items := by
  induction items with
  | nil => exact absurd rfl hne
  | cons j items ih =>
      have hj := h j List.mem_cons_self
      cases items with
      | nil => exact .last (blanks_newline level) hj
      | cons k items =>
          have hrest := ih (List.cons_ne_nil _ _) fun x hx => h x (List.mem_cons_of_mem _ hx)
          rw [prettyItems, List.append_assoc]
          · exact .more (blanks_newline level) hj hrest
          · exact List.cons_ne_nil _ _

theorem readFields_prettyFields {level : Nat} {fields : List (Option String × Json)}
    (hne : fields ≠ []) (named : ∀ f ∈ fields, f.1.isSome)
    (h : ∀ f ∈ fields, Reads (prettyChars level f.2) f.2) :
    ReadFields (prettyFields level fields) fields := by
  have hspace : Blanks [' '] := by
    intro c hc
    obtain rfl := List.mem_singleton.mp hc
    rfl
  induction fields with
  | nil => exact absurd rfl hne
  | cons f fields ih =>
      obtain ⟨name, j⟩ := f
      obtain ⟨name, rfl⟩ := Option.isSome_iff_exists.mp (named _ List.mem_cons_self)
      have hj : Reads (prettyChars level j) j := h (some name, j) List.mem_cons_self
      cases fields with
      | nil =>
          rw [prettyFields, List.append_assoc, List.append_assoc]
          exact .last (blanks_newline level) hspace hj
      | cons g fields =>
          have hrest := ih (List.cons_ne_nil _ _) (fun x hx => named x (List.mem_cons_of_mem _ hx))
            fun x hx => h x (List.mem_cons_of_mem _ hx)
          rw [prettyFields, List.append_assoc, List.append_assoc, List.append_assoc]
          · exact .more (blanks_newline level) hspace hj hrest
          · exact List.cons_ne_nil _ _

theorem Plain.reads_prettyChars {j : Json} (h : Plain j) (level : Nat) :
    Reads (prettyChars level j) j := by
  induction h generalizing level with
  | null => exact reads_null
  | bool b =>
      cases b with
      | false => exact reads_false
      | true => exact reads_true
  | natural n => exact reads_decimal n
  | text s => exact reads_quote s
  | array items _ ih =>
      cases items with
      | nil => exact reads_noItems
      | cons j items =>
          exact (readItems_prettyItems (List.cons_ne_nil j items)
            fun x hx => ih x hx (level + 1)).reads (blanks_newline level)
  | object fields named _ ih =>
      cases fields with
      | nil => exact reads_noFields
      | cons f fields =>
          exact (readFields_prettyFields (List.cons_ne_nil f fields) named
            fun x hx => ih x hx (level + 1)).reads (blanks_newline level)

/-- The indented text of a plain value denotes it. -/
theorem Plain.parse?_pretty {j : Json} (h : Plain j) : parse? (pretty j) = some j :=
  (h.reads_prettyChars 0).parse?_eq

/-! ### One line -/

theorem not_mem_hexadecimal (width n : Nat) : '\n' ∉ Text.hexadecimal width n := by
  have hdigit : ∀ m < 16, '\n' ≠ Text.digit m := by decide
  induction width generalizing n with
  | zero => exact List.not_mem_nil
  | succ width ih =>
      rw [Text.hexadecimal, List.mem_append, List.mem_singleton]
      rintro (h | h)
      · exact ih _ h
      · exact hdigit _ (Nat.mod_lt n (by decide)) h

theorem not_mem_escapeChar (c : Char) : '\n' ∉ escapeChar c := by
  unfold escapeChar
  split
  · decide
  · decide
  · decide
  · decide
  · decide
  · decide
  · decide
  · rename_i hfeed _ _ _ _
    split
    · rw [List.mem_append]
      rintro (h | h)
      · revert h
        decide
      · exact not_mem_hexadecimal _ _ h
    · rw [List.mem_singleton]
      exact fun h => hfeed h.symm

theorem not_mem_quote (s : String) : '\n' ∉ quote s := by
  have hbody : '\n' ∉ s.toList.flatMap escapeChar := by
    rw [List.mem_flatMap]
    rintro ⟨c, -, hc⟩
    exact not_mem_escapeChar c hc
  simp [quote, hbody]

theorem not_mem_compactItems {items : List Json} (h : ∀ j ∈ items, '\n' ∉ compactChars j) :
    '\n' ∉ compactItems items := by
  induction items with
  | nil => exact List.not_mem_nil
  | cons j items ih =>
      have hj := h j List.mem_cons_self
      have hitems := ih fun x hx => h x (List.mem_cons_of_mem _ hx)
      cases items with
      | nil => exact hj
      | cons k items =>
          rw [compactItems]
          · simp [hj, hitems]
          · exact List.cons_ne_nil _ _

theorem not_mem_compactFields {fields : List (Option String × Json)}
    (named : ∀ f ∈ fields, f.1.isSome) (h : ∀ f ∈ fields, '\n' ∉ compactChars f.2) :
    '\n' ∉ compactFields fields := by
  induction fields with
  | nil => exact List.not_mem_nil
  | cons f fields ih =>
      obtain ⟨name, j⟩ := f
      obtain ⟨name, rfl⟩ := Option.isSome_iff_exists.mp (named _ List.mem_cons_self)
      have hname := not_mem_quote name
      have hj : '\n' ∉ compactChars j := h (some name, j) List.mem_cons_self
      have hfields := ih (fun x hx => named x (List.mem_cons_of_mem _ hx))
        fun x hx => h x (List.mem_cons_of_mem _ hx)
      cases fields with
      | nil =>
          rw [compactFields, quoteName]
          simp [hname, hj]
      | cons g fields =>
          rw [compactFields, quoteName]
          · simp [hname, hj, hfields]
          · exact List.cons_ne_nil _ _

/-- The compact text of a plain value is one line: line feeds in its strings are escaped. -/
theorem Plain.not_mem_compactChars {j : Json} (h : Plain j) : '\n' ∉ compactChars j := by
  induction h with
  | null => decide
  | bool b => cases b <;> decide
  | natural n =>
      rw [compactChars]
      exact (Text.ending_decimal n).oneLine
  | text s =>
      rw [compactChars]
      exact not_mem_quote s
  | array items h ih =>
      have hitems := not_mem_compactItems ih
      rw [compactChars]
      simp [hitems]
  | object fields named h ih =>
      have hfields := not_mem_compactFields named ih
      rw [compactChars]
      simp [hfields]

end Interleave.Json
