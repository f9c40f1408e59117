import Interleave.Proofs.Dump.RoundTrip

/-!
# The grammar of dumps

Which lines hold decisions and what header lines say, stated without the functions that read them.
`Decision.Written` gives the four forms of a decision, and a line is read exactly as the decision it
is written for (`Decision.ofChars?_eq_some_iff`). `Header.SaidBy` relates a header to the header
lines that make it up: a mark is set by a line of its own, and a value is that of the last line with
its key. A line either misstates a number and is refused (`Header.apply_of_misstates`) or adds what
it says (`Header.SaidBy.apply`); a line of any other shape says nothing.
-/

namespace Interleave

/-! ### Decisions -/

namespace Decision

theorem readBool?_eq_some_iff {cs : List Char} {b : Bool} :
    readBool? cs = some b ↔ cs = (showBool b).toList := by
  constructor
  · intro h
    unfold readBool? at h
    split at h
    · cases h
      assumption
    · split at h
      · cases h
        assumption
      · cases h
  · rintro rfl
    exact readBool?_showBool b

/-- The grammar of the lines that hold decisions. -/
inductive Written : List Char → Decision → Prop
  | schedule {digits : List Char} {n : Nat} (numeral : Text.Numeral digits n)
      (fits : n < UInt64.size) : Written ("sched".toList ++ ':' :: digits) (.schedule ⟨n.toUInt64⟩)
  | boolean (b : Bool) : Written ("bool".toList ++ ':' :: (showBool b).toList) (.boolean b)
  | integer {digits : List Char} {n : Nat} (numeral : Text.Numeral digits n)
      (fits : n < UInt32.size) : Written ("int".toList ++ ':' :: digits) (.integer n.toUInt32)
  | fairBoolean (fairness : List Char) (b : Bool) :
      Written ("fair-bool".toList ++ ':' :: (fairness ++ ':' :: (showBool b).toList))
        (.fairBoolean (String.ofList fairness) b)

/-- A decision is read off exactly the lines of its grammar. -/
theorem ofChars?_eq_some_iff {cs : List Char} {d : Decision} :
    ofChars? cs = some d ↔ Written cs d := by
  constructor
  · intro h
    obtain ⟨⟨kind, rest⟩, hsplit, -⟩ := Option.bind_eq_some_iff.mp h
    obtain rfl := Text.eq_append_of_splitFirst? hsplit
    rw [ofChars?_append (Text.not_mem_of_splitFirst? hsplit)] at h
    -- the four kinds, in the order in which they are tried
    split at h
    · rename_i hkind
      obtain ⟨n, hn, rfl⟩ := Option.map_eq_some_iff.mp h
      obtain ⟨hnumeral, hfits⟩ := Text.unsigned?_eq_some_iff.mp hn
      rw [hkind]
      exact .schedule hnumeral hfits
    split at h
    · rename_i hkind
      obtain ⟨b, hb, rfl⟩ := Option.map_eq_some_iff.mp h
      rw [hkind, readBool?_eq_some_iff.mp hb]
      exact .boolean b
    split at h
    · rename_i hkind
      obtain ⟨n, hn, rfl⟩ := Option.map_eq_some_iff.mp h
      obtain ⟨hnumeral, hfits⟩ := Text.unsigned?_eq_some_iff.mp hn
      rw [hkind]
      exact .integer hnumeral hfits
    split at h
    · rename_i hkind
      obtain ⟨⟨fairness, word⟩, hlast, h⟩ := Option.bind_eq_some_iff.mp h
      obtain ⟨b, hb, rfl⟩ := Option.map_eq_some_iff.mp h
      obtain rfl : word = _ := readBool?_eq_some_iff.mp hb
      rw [hkind, Text.eq_append_of_splitLast? hlast]
      exact .fairBoolean fairness b
    · cases h
  · intro h
    cases h with
    | schedule numeral fits =>
        rw [ofChars?_append (by decide), if_pos rfl,
          Text.unsigned?_eq_some_iff.mpr ⟨numeral, fits⟩, Option.map_some]
    | boolean b =>
        rw [ofChars?_append (by decide), if_neg (by decide), if_pos rfl, readBool?_showBool,
          Option.map_some]
    | integer numeral fits =>
        rw [ofChars?_append (by decide), if_neg (by decide), if_neg (by decide), if_pos rfl,
          Text.unsigned?_eq_some_iff.mpr ⟨numeral, fits⟩, Option.map_some]
    | fairBoolean fairness b =>
        have hword : ':' ∉ (showBool b).toList := by cases b <;> decide
        rw [ofChars?_append (by decide), if_neg (by decide), if_neg (by decide),
          if_neg (by decide), if_pos rfl, Text.splitLast?_append hword, Option.bind_some,
          readBool?_showBool, Option.map_some]

end Decision

/-! ### Header lines -/

namespace Header

/-- A header line of the given key without a value. -/
def bare (key : String) : List Char :=
  ['-', '-'] ++ key.toList

/-- What stands in front of the value on a header line of the given key. -/
def marker (key : String) : List Char :=
  ['-', '-'] ++ (key.toList ++ [':'])

/-- The value on the last of the lines that have the given key and a value. -/
def lastValue? (key : String) (texts : List (List Char)) : Option (List Char) :=
  (texts.filterMap (Text.dropStart? (marker key))).getLast?

/-- The line has the given value for a key that asks for a number of the machine's word, and the
value is not the numeral of one. -/
structure Misstates (text : List Char) (key : String) (value : List Char) : Prop where
  shape : text = marker key ++ value
  numeric : key = "liveness-temperature-threshold" ∨ key = "bug-step"
  bad : ∀ n, Text.Numeral value n → UInt64.size ≤ n

/-- What header lines say in order: a mark is set by its line, and of several values for a key the
last one counts. -/
structure SaidBy (h : Header) (texts : List (List Char)) : Prop where
  fairScheduling : h.fairScheduling = true ↔ bare "fair-scheduling" ∈ texts
  cycleDetection : h.cycleDetection = true ↔ bare "cycle-detection" ∈ texts
  livenessThreshold : Option.Rel Text.Numeral (lastValue? "liveness-temperature-threshold" texts)
    h.livenessThreshold
  testMethod : h.testMethod = (lastValue? "test-method" texts).map String.ofList
  isMintrace : h.isMintrace = true ↔ bare "is-mintrace" ∈ texts
  bugFound : h.bugFound = true ↔ bare "bug-found" ∈ texts
  bugStep : Option.Rel Text.Numeral (lastValue? "bug-step" texts) h.bugStep
  livenessMonitor : h.livenessMonitor = (lastValue? "liveness-monitor" texts).map String.ofList

theorem keyValue_eq_some_iff {key : String} (hkey : ':' ∉ key.toList) {rest value : List Char} :
    keyValue rest = (key, some value) ↔ ['-', '-'] ++ rest = marker key ++ value := by
  have hmarker : ['-', '-'] ++ rest = marker key ++ value ↔ rest = key.toList ++ ':' :: value := by
    simp [marker]
  rw [hmarker]
  constructor
  · intro h
    rw [keyValue] at h
    split at h
    · rename_i front back hsplit
      cases h
      rw [String.toList_ofList, Text.eq_append_of_splitFirst? hsplit]
    · cases h
  · rintro rfl
    exact keyValue_append hkey value

theorem keyValue_eq_none_iff {key : String} (hkey : ':' ∉ key.toList) {rest : List Char} :
    keyValue rest = (key, none) ↔ bare key = ['-', '-'] ++ rest := by
  have hbare : bare key = ['-', '-'] ++ rest ↔ rest = key.toList := by
    simp [bare, eq_comm]
  rw [hbare]
  constructor
  · intro h
    rw [keyValue] at h
    split at h
    · cases h
    · cases h
      exact String.toList_ofList.symm
  · rintro rfl
    exact keyValue_key hkey

theorem mem_concat_iff {key : String} (hkey : ':' ∉ key.toList) {texts : List (List Char)}
    {rest : List Char} :
    bare key ∈ texts ++ [['-', '-'] ++ rest] ↔ bare key ∈ texts ∨ keyValue rest = (key, none) := by
  rw [List.mem_append, List.mem_singleton, keyValue_eq_none_iff hkey]

theorem dropStart?_eq_some_iff {start cs rest : List Char} :
    Text.dropStart? start cs = some rest ↔ cs = start ++ rest := by
  constructor
  · exact Text.eq_append_of_dropStart?
  · rintro rfl
    exact Text.dropStart?_append start rest

/-- The value that a line of the given key and value adds for a key. -/
def valueFor? (key : String) (entry : String × Option (List Char)) : Option (List Char) :=
  if entry.1 = key then entry.2 else none

theorem valueFor?_of_ne {key : String} {entry : String × Option (List Char)}
    (h : ∀ value, entry ≠ (key, some value)) : valueFor? key entry = none := by
  obtain ⟨k, value⟩ := entry
  rw [valueFor?]
  split
  · rename_i hk
    obtain rfl : k = key := hk
    cases value with
    | none => rfl
    | some value => exact absurd rfl (h value)
  · rfl

theorem lastValue?_concat {key : String} (hkey : ':' ∉ key.toList) {texts : List (List Char)}
    {rest : List Char} :
    lastValue? key (texts ++ [['-', '-'] ++ rest]) =
      (valueFor? key (keyValue rest)).or (lastValue? key texts) := by
  have hdrop : Text.dropStart? (marker key) (['-', '-'] ++ rest) =
      valueFor? key (keyValue rest) := by
    refine Option.ext fun value => ?_
    rw [dropStart?_eq_some_iff, ← keyValue_eq_some_iff hkey, valueFor?]
    rcases keyValue rest with ⟨k, v⟩
    by_cases hk : k = key
    · simp [hk]
    · simp [hk]
  rw [lastValue?, lastValue?, List.filterMap_append, List.getLast?_append, ← hdrop]
  cases h : Text.dropStart? (marker key) (['-', '-'] ++ rest) with
  | none => rw [List.filterMap_cons_none h]; rfl
  | some value => rw [List.filterMap_cons_some h]; rfl

theorem number?_of_misstates {value : List Char}
    (h : ∀ n, Text.Numeral value n → UInt64.size ≤ n) (line : Nat) (key : String) :
    number? line key value = .error (.invalidHeader line key (String.ofList value)) := by
  have hnone : Text.unsigned? UInt64.size value = none := by
    refine Option.eq_none_iff_forall_not_mem.mpr fun n hn => ?_
    obtain ⟨hnumeral, hlt⟩ := Text.unsigned?_eq_some_iff.mp hn
    exact absurd (h n hnumeral) (Nat.not_le.mpr hlt)
  rw [number?, hnone]

theorem apply_of_misstates {h : Header} {key : String} {rest value : List Char}
    (hbad : Misstates (['-', '-'] ++ rest) key value) (line : Nat) :
    h.apply line rest = .error (.invalidHeader line key (String.ofList value)) := by
  obtain ⟨hshape, rfl | rfl, hvalue⟩ := hbad
  · rw [apply, (keyValue_eq_some_iff (by decide)).mpr hshape]
    simp only [number?_of_misstates hvalue]
    rfl
  · rw [apply, (keyValue_eq_some_iff (by decide)).mpr hshape]
    simp only [number?_of_misstates hvalue]
    rfl

/-- A value for a numeric key on a line that is in order is read. -/
theorem exists_number? {key : String}
    (hnumeric : key = "liveness-temperature-threshold" ∨ key = "bug-step")
    {rest value : List Char} (hkv : keyValue rest = (key, some value))
    (hgood : ∀ key value, ¬Misstates (['-', '-'] ++ rest) key value) (line : Nat) :
    ∃ n, number? line key value = .ok n ∧ Text.Numeral value n := by
  have hkey : ':' ∉ key.toList := by
    rcases hnumeric with rfl | rfl <;> decide
  have hfits : ∃ n, Text.Numeral value n ∧ n < UInt64.size := by
    -- otherwise the line misstates its number
    by_contra hnone
    push Not at hnone
    exact hgood key value ⟨(keyValue_eq_some_iff hkey).mp hkv, hnumeric, hnone⟩
  obtain ⟨n, hnumeral, hlt⟩ := hfits
  refine ⟨n, ?_, hnumeral⟩
  rw [number?, Text.unsigned?_eq_some_iff.mpr ⟨hnumeral, hlt⟩]

theorem saidBy_nil : SaidBy {} [] where
  fairScheduling := by simp
  cycleDetection := by simp
  livenessThreshold := .none
  testMethod := rfl
  isMintrace := by simp
  bugFound := by simp
  bugStep := .none
  livenessMonitor := rfl

/-- A line that is in order adds what it says. -/
theorem SaidBy.apply {h : Header} {texts : List (List Char)} (hs : h.SaidBy texts)
    {rest : List Char} (hgood : ∀ key value, ¬Misstates (['-', '-'] ++ rest) key value)
    (line : Nat) :
    ∃ h', h.apply line rest = .ok h' ∧ h'.SaidBy (texts ++ [['-', '-'] ++ rest]) := by
  obtain ⟨fair, cycles, threshold, method, mintrace, found, step, monitor⟩ := hs
  unfold Header.apply
  split
  -- the number of the line is read first, since the line does not misstate it
  case h_5 hkv =>
    obtain ⟨n, hn, hnumeral⟩ := exists_number? (Or.inl rfl) hkv hgood line
    rw [hn]
    refine ⟨_, rfl, ?_⟩
    constructor <;> simp (disch := decide) only [mem_concat_iff, lastValue?_concat, hkv] <;>
      simp [valueFor?, *]
  case h_6 hkv =>
    obtain ⟨n, hn, hnumeral⟩ := exists_number? (Or.inr rfl) hkv hgood line
    rw [hn]
    refine ⟨_, rfl, ?_⟩
    constructor <;> simp (disch := decide) only [mem_concat_iff, lastValue?_concat, hkv] <;>
      simp [valueFor?, *]
  -- a line of another shape is none of those on which a field depends
  case h_9 hfair hcycles hmintrace hfound hthreshold hstep hmethod hmonitor =>
    refine ⟨_, rfl, ?_⟩
    constructor <;> simp (disch := decide) only [mem_concat_iff, lastValue?_concat,
      valueFor?_of_ne hthreshold, valueFor?_of_ne hstep, valueFor?_of_ne hmethod,
      valueFor?_of_ne hmonitor, Option.none_or, or_iff_left hfair, or_iff_left hcycles,
      or_iff_left hmintrace, or_iff_left hfound, *]
  -- a mark or a name: one field depends on the line, and all the others stay
  all_goals
    rename_i hkv
    refine ⟨_, rfl, ?_⟩
    constructor <;> simp (disch := decide) only [mem_concat_iff, lastValue?_concat, hkv] <;>
      simp [valueFor?, *]

/-- Lines say one header at most. -/
theorem SaidBy.unique {h h' : Header} {texts : List (List Char)} (hs : h.SaidBy texts)
    (hs' : h'.SaidBy texts) : h = h' := by
  have hflag : ∀ {a b : Bool} {p : Prop}, (a = true ↔ p) → (b = true ↔ p) → a = b :=
    fun ha hb => Bool.eq_iff_iff.mpr (ha.trans hb.symm)
  have hnumber : ∀ {value : Option (List Char)} {m n : Option Nat},
      Option.Rel Text.Numeral value m → Option.Rel Text.Numeral value n → m = n := by
    rintro value m n (hm | _) (hn | _)
    · rw [hm.unique hn]
    · rfl
  obtain ⟨fair, cycles, threshold, method, mintrace, found, step, monitor⟩ := h
  obtain ⟨fair', cycles', threshold', method', mintrace', found', step', monitor'⟩ := h'
  obtain rfl : fair = fair' := hflag hs.fairScheduling hs'.fairScheduling
  obtain rfl : cycles = cycles' := hflag hs.cycleDetection hs'.cycleDetection
  obtain rfl : threshold = threshold' := hnumber hs.livenessThreshold hs'.livenessThreshold
  obtain rfl : method = method' := hs.testMethod.trans hs'.testMethod.symm
  obtain rfl : mintrace = mintrace' := hflag hs.isMintrace hs'.isMintrace
  obtain rfl : found = found' := hflag hs.bugFound hs'.bugFound
  obtain rfl : step = step' := hnumber hs.bugStep hs'.bugStep
  obtain rfl : monitor = monitor' := hs.livenessMonitor.trans hs'.livenessMonitor.symm
  rfl

end Header

end Interleave
