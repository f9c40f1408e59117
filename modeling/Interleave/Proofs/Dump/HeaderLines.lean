import Interleave.Dump.Basic
import Interleave.Proofs.Text.Numeral

/-!
# Header lines read back

The header lines that `Header.lines` writes are read as the header they were written from, with the
blanks at the end of its two names gone (`Header.reads_lines`); the line numbers, which only errors
mention, do not matter. In the other direction, whatever lines a header was read from, its numbers
are in range and its names can stand at the end of a line (`Header.legible_of_readLines`).
-/

namespace Interleave

open Text (Line Ending)

namespace Header

/-- The numbers of a header fit in a machine word. -/
structure InRange (h : Header) : Prop where
  threshold : ∀ n ∈ h.livenessThreshold, n < UInt64.size
  bugStep : ∀ n ∈ h.bugStep, n < UInt64.size

/-- The names of a header can be the ends of lines. -/
structure Legible (h : Header) : Prop where
  testMethod : ∀ name ∈ h.testMethod, Ending name.toList
  livenessMonitor : ∀ name ∈ h.livenessMonitor, Ending name.toList

/-- A text without the blanks at its end. -/
def trimName (name : String) : String :=
  String.ofList (Text.trimEnd name.toList)

/-- The header with its names trimmed as the lines that they end are. -/
def trimmed (h : Header) : Header :=
  { h with
    testMethod := h.testMethod.map trimName
    livenessMonitor := h.livenessMonitor.map trimName }

theorem trimName_eq_self {name : String} (h : Ending name.toList) : trimName name = name := by
  rw [trimName, (Text.trimEnd_eq_self_iff _).mpr h.trimmed, String.ofList_toList]

theorem Legible.trimmed {h : Header} (hl : h.Legible) : h.trimmed = h := by
  obtain ⟨fair, cycles, threshold, method, mintrace, found, step, monitor⟩ := h
  have hmethod : method.map trimName = method := by
    cases method with
    | none => rfl
    | some name => rw [Option.map_some, trimName_eq_self (hl.testMethod name rfl)]
  have hmonitor : monitor.map trimName = monitor := by
    cases monitor with
    | none => rfl
    | some name => rw [Option.map_some, trimName_eq_self (hl.livenessMonitor name rfl)]
  simp only [Header.trimmed, hmethod, hmonitor]

/-- One line of a dump read into the header: a line of the body changes nothing. -/
def readLine (h : Header) (entry : Nat × List Char) : Except DumpError Header :=
  match Dump.headerText? entry.2 with
  | some rest => h.apply entry.1 rest
  | none => .ok h

/-- The lines lead the header `h` to `h'`, whatever numbers they have. -/
def Reads (h : Header) (texts : List (List Char)) (h' : Header) : Prop :=
  ∀ entries : List (Nat × List Char), entries.map Prod.snd = texts →
    entries.foldlM readLine h = .ok h'

variable {h h' h'' : Header} {texts more : List (List Char)}

theorem Reads.append (first : Reads h texts h') (second : Reads h' more h'') :
    Reads h (texts ++ more) h'' := by
  intro entries hentries
  obtain ⟨front, back, rfl, hfront, hback⟩ := List.map_eq_append_iff.mp hentries
  rw [List.foldlM_append, first front hfront]
  exact second back hback

theorem Reads.of_body (hbody : ∀ text ∈ texts, Dump.headerText? text = none) : Reads h texts h := by
  rintro entries rfl
  induction entries with
  | nil => rfl
  | cons entry entries ih =>
      have hentry : readLine h entry = .ok h := by
        rw [readLine, hbody entry.2 List.mem_cons_self]
      rw [List.foldlM_cons, hentry]
      exact ih fun text htext => hbody text (List.mem_cons_of_mem _ htext)

theorem Reads.singleton {rest : List Char} (h₁ : ∀ line, h.apply line rest = .ok h') :
    Reads h [['-', '-'] ++ rest] h' := by
  intro entries hentries
  obtain ⟨⟨line, text⟩, tail, rfl, htext, htail⟩ := List.map_eq_cons_iff.mp hentries
  obtain rfl := List.map_eq_nil_iff.mp htail
  obtain rfl : text = _ := htext
  have hread : readLine h (line, ['-', '-'] ++ rest) = .ok h' := by
    rw [readLine, Dump.headerText?, Text.dropStart?_append]
    exact h₁ line
  rw [List.foldlM_cons, hread]
  rfl

/-- The lines of a dump as they are read: trimmed. -/
def trims (lines : List String) : List (List Char) :=
  lines.map fun line => Text.trim line.toList

theorem trims_append (first second : List String) :
    trims (first ++ second) = trims first ++ trims second :=
  List.map_append

theorem line_dashes {key : String} (hkey : Line key.toList) : Line ("--" ++ key).toList := by
  rw [String.toList_append]
  exact Line.append (by decide) hkey.toEnding

theorem keyValue_key {key : String} (h : ':' ∉ key.toList) : keyValue key.toList = (key, none) := by
  rw [keyValue, Text.splitFirst?_eq_none h, String.ofList_toList]

theorem keyValue_append {key : String} (h : ':' ∉ key.toList) (value : List Char) :
    keyValue (key.toList ++ ':' :: value) = (key, some value) := by
  rw [keyValue, Text.splitFirst?_append h]
  simp only [String.ofList_toList]

theorem number?_decimal {n : Nat} (hn : n < UInt64.size) (line : Nat) (key : String) :
    number? line key (Text.trimEnd (Text.showNat n).toList) = .ok n := by
  rw [Text.showNat, String.toList_ofList,
    (Text.trimEnd_eq_self_iff _).mpr (Text.ending_decimal n).trimmed, number?,
    Text.unsigned?_decimal hn]

theorem reads_flagLine (key : String) (set : Bool → Header) (flag : Bool) (hkey : Line key.toList)
    (happly : ∀ line, (set false).apply line key.toList = .ok (set true)) :
    Reads (set false) (trims (flagLine key flag)) (set flag) := by
  cases flag with
  | false => exact Reads.of_body fun text htext => by cases htext
  | true =>
      have htrim : trims (flagLine key true) = [['-', '-'] ++ key.toList] := by
        rw [trims, flagLine, if_pos rfl, List.map_singleton, (line_dashes hkey).trim,
          String.toList_append]
        rfl
      rw [htrim]
      exact Reads.singleton happly

theorem trims_valueLine {key : String} (hkey : Line key.toList) (v : String) :
    trims (valueLine key (some v)) =
      [['-', '-'] ++ (key.toList ++ ':' :: Text.trimEnd v.toList)] := by
  have hfront : Line ("--" ++ key ++ ":").toList := by
    rw [String.toList_append]
    exact (line_dashes hkey).append (by decide)
  have hflush : Text.startsBlank (("--" ++ key ++ ":").toList ++ v.toList) = false := by
    have h := hfront.flush
    obtain ⟨c, cs, hcs⟩ := List.exists_cons_of_ne_nil hfront.nonempty
    rw [hcs] at h ⊢
    exact h
  simp only [trims, valueLine, Option.map_some, Option.toList_some, List.map_singleton]
  rw [String.toList_append, Text.trim_eq_trimEnd hflush, Text.trimEnd_append hfront.trimmed]
  simp

/-- A name is read as the rest of its line, trimmed. -/
theorem reads_nameLine (key : String) (set : Option String → Header) (name : Option String)
    (hkey : Line key.toList)
    (happly : ∀ line rest, (set none).apply line (key.toList ++ ':' :: rest) =
      .ok (set (some (String.ofList rest)))) :
    Reads (set none) (trims (valueLine key name)) (set (name.map trimName)) := by
  cases name with
  | none => exact Reads.of_body fun text htext => by cases htext
  | some v =>
      rw [trims_valueLine hkey]
      exact Reads.singleton fun line => happly line _

/-- A number is read back. -/
theorem reads_numberLine (key : String) (set : Option Nat → Header) (number : Option Nat)
    (hkey : Line key.toList) (hrange : ∀ n ∈ number, n < UInt64.size)
    (happly : ∀ line rest n, number? line key rest = .ok n →
      (set none).apply line (key.toList ++ ':' :: rest) = .ok (set (some n))) :
    Reads (set none) (trims (valueLine key (number.map Text.showNat))) (set number) := by
  cases number with
  | none => exact Reads.of_body fun text htext => by cases htext
  | some n =>
      rw [Option.map_some, trims_valueLine hkey]
      exact Reads.singleton fun line => happly line _ n (number?_decimal (hrange n rfl) line key)

/-- The header lines of a header are read as the header with its names trimmed. -/
theorem reads_lines {h : Header} (hr : h.InRange) : Reads {} (trims h.lines) h.trimmed := by
  obtain ⟨fair, cycles, threshold, method, mintrace, found, step, monitor⟩ := h
  -- one line after the other, in the order in which they are written
  have hfair := reads_flagLine "fair-scheduling" (fun b => { fairScheduling := b }) fair
    (by decide) fun line => by rw [apply, keyValue_key (by decide)]; rfl
  have hcycles := reads_flagLine "cycle-detection"
    (fun b => { fairScheduling := fair, cycleDetection := b }) cycles
    (by decide) fun line => by rw [apply, keyValue_key (by decide)]; rfl
  have hthreshold := reads_numberLine "liveness-temperature-threshold"
    (fun n => { fairScheduling := fair, cycleDetection := cycles, livenessThreshold := n })
    threshold (by decide) hr.threshold fun line rest n hn => by
      rw [apply, keyValue_append (by decide)]; simp only [hn]; rfl
  have hmethod := reads_nameLine "test-method"
    (fun name => { fairScheduling := fair, cycleDetection := cycles
                   livenessThreshold := threshold, testMethod := name }) method
    (by decide) fun line rest => by rw [apply, keyValue_append (by decide)]; rfl
  have hmintrace := reads_flagLine "is-mintrace"
    (fun b => { fairScheduling := fair, cycleDetection := cycles, livenessThreshold := threshold
                testMethod := method.map trimName, isMintrace := b }) mintrace
    (by decide) fun line => by rw [apply, keyValue_key (by decide)]; rfl
  have hfound := reads_flagLine "bug-found"
    (fun b => { fairScheduling := fair, cycleDetection := cycles, livenessThreshold := threshold
                testMethod := method.map trimName, isMintrace := mintrace, bugFound := b }) found
    (by decide) fun line => by rw [apply, keyValue_key (by decide)]; rfl
  have hstep := reads_numberLine "bug-step"
    (fun n => { fairScheduling := fair, cycleDetection := cycles, livenessThreshold := threshold
                testMethod := method.map trimName, isMintrace := mintrace, bugFound := found
                bugStep := n }) step
    (by decide) hr.bugStep fun line rest n hn => by
      rw [apply, keyValue_append (by decide)]; simp only [hn]; rfl
  have hmonitor := reads_nameLine "liveness-monitor"
    (fun name => { fairScheduling := fair, cycleDetection := cycles
                   livenessThreshold := threshold, testMethod := method.map trimName
                   isMintrace := mintrace, bugFound := found, bugStep := step
                   livenessMonitor := name }) monitor
    (by decide) fun line rest => by rw [apply, keyValue_append (by decide)]; rfl
  simp only [lines, trims_append]
  exact ((((((hfair.append hcycles).append hthreshold).append hmethod).append hmintrace).append
    hfound).append hstep).append hmonitor

theorem exists_of_mem_flagLine {key line : String} {flag : Bool} (hkey : '\n' ∉ key.toList)
    (hline : line ∈ flagLine key flag) :
    ∃ rest, line.toList = ['-', '-'] ++ rest ∧ '\n' ∉ rest := by
  cases flag with
  | false => cases hline
  | true =>
      obtain rfl := List.mem_singleton.mp hline
      exact ⟨key.toList, String.toList_append, hkey⟩

theorem exists_of_mem_valueLine {key line : String} {value : Option String}
    (hkey : '\n' ∉ key.toList) (hvalue : ∀ v ∈ value, '\n' ∉ v.toList)
    (hline : line ∈ valueLine key value) :
    ∃ rest, line.toList = ['-', '-'] ++ rest ∧ '\n' ∉ rest := by
  cases value with
  | none => cases hline
  | some v =>
      obtain rfl := List.mem_singleton.mp hline
      refine ⟨key.toList ++ ':' :: v.toList, ?_, ?_⟩
      · simp only [String.toList_append, List.append_assoc]
        rfl
      · intro hmem
        rcases List.mem_append.mp hmem with hmem | hmem
        · exact hkey hmem
        · rcases List.mem_cons.mp hmem with heq | hmem
          · cases heq
          · exact hvalue v rfl hmem

/-- A header line is one line if the name it may hold is, and starts with its dashes. -/
theorem exists_of_mem_lines {h : Header} {line : String}
    (hmethod : ∀ name ∈ h.testMethod, '\n' ∉ name.toList)
    (hmonitor : ∀ name ∈ h.livenessMonitor, '\n' ∉ name.toList) (hline : line ∈ h.lines) :
    ∃ rest, line.toList = ['-', '-'] ++ rest ∧ '\n' ∉ rest := by
  have hnumber : ∀ number : Option Nat, ∀ v ∈ number.map Text.showNat, '\n' ∉ v.toList := by
    intro number v hv
    obtain ⟨n, -, rfl⟩ := Option.map_eq_some_iff.mp hv
    rw [Text.showNat, String.toList_ofList]
    exact (Text.ending_decimal n).oneLine
  simp only [lines, List.mem_append] at hline
  rcases hline with ((((((hline | hline) | hline) | hline) | hline) | hline) | hline) | hline
  · exact exists_of_mem_flagLine (by decide) hline
  · exact exists_of_mem_flagLine (by decide) hline
  · exact exists_of_mem_valueLine (by decide) (hnumber _) hline
  · exact exists_of_mem_valueLine (by decide) hmethod hline
  · exact exists_of_mem_flagLine (by decide) hline
  · exact exists_of_mem_flagLine (by decide) hline
  · exact exists_of_mem_valueLine (by decide) (hnumber _) hline
  · exact exists_of_mem_valueLine (by decide) hmonitor hline

/-! ### What is read is legible and in range -/

theorem lt_of_number? {line n : Nat} {key : String} {value : List Char}
    (h : number? line key value = .ok n) : n < UInt64.size := by
  rw [number?] at h
  split at h
  · rename_i hn
    cases h
    exact Text.lt_of_unsigned? hn
  · cases h

theorem ending_value {text value : List Char} {key : String} (htext : Ending text)
    (h : keyValue text = (key, some value)) : Ending value := by
  rw [keyValue] at h
  split at h
  · rename_i front back hsplit
    cases h
    refine htext.of_suffix ⟨front ++ [':'], ?_⟩
    rw [Text.eq_append_of_splitFirst? hsplit, List.append_assoc]
    rfl
  · cases h

/-- One header line keeps the numbers in range and the names legible. -/
theorem legible_of_apply {h h' : Header} {line : Nat} {text : List Char} (hr : h.InRange)
    (hl : h.Legible) (htext : Ending text) (happly : h.apply line text = .ok h') :
    h'.InRange ∧ h'.Legible := by
  unfold apply at happly
  split at happly
  -- four keys set marks, two set numbers, two set names, and any other key sets nothing
  · cases happly
    exact ⟨⟨hr.threshold, hr.bugStep⟩, ⟨hl.testMethod, hl.livenessMonitor⟩⟩
  · cases happly
    exact ⟨⟨hr.threshold, hr.bugStep⟩, ⟨hl.testMethod, hl.livenessMonitor⟩⟩
  · cases happly
    exact ⟨⟨hr.threshold, hr.bugStep⟩, ⟨hl.testMethod, hl.livenessMonitor⟩⟩
  · cases happly
    exact ⟨⟨hr.threshold, hr.bugStep⟩, ⟨hl.testMethod, hl.livenessMonitor⟩⟩
  · rename_i value hkey
    cases hn : number? line "liveness-temperature-threshold" value with
    | error e => rw [hn] at happly; cases happly
    | ok n =>
        rw [hn] at happly
        cases happly
        refine ⟨⟨fun m hm => ?_, hr.bugStep⟩, ⟨hl.testMethod, hl.livenessMonitor⟩⟩
        obtain rfl := Option.some.inj hm
        exact lt_of_number? hn
  · rename_i value hkey
    cases hn : number? line "bug-step" value with
    | error e => rw [hn] at happly; cases happly
    | ok n =>
        rw [hn] at happly
        cases happly
        refine ⟨⟨hr.threshold, fun m hm => ?_⟩, ⟨hl.testMethod, hl.livenessMonitor⟩⟩
        obtain rfl := Option.some.inj hm
        exact lt_of_number? hn
  · rename_i value hkey
    cases happly
    refine ⟨⟨hr.threshold, hr.bugStep⟩, ⟨fun name hname => ?_, hl.livenessMonitor⟩⟩
    obtain rfl := Option.some.inj hname
    rw [String.toList_ofList]
    exact ending_value htext hkey
  · rename_i value hkey
    cases happly
    refine ⟨⟨hr.threshold, hr.bugStep⟩, ⟨hl.testMethod, fun name hname => ?_⟩⟩
    obtain rfl := Option.some.inj hname
    rw [String.toList_ofList]
    exact ending_value htext hkey
  · cases happly
    exact ⟨hr, hl⟩

/-- So do any number of lines. -/
theorem legible_of_readLines {entries : List (Nat × List Char)} {h h' : Header} (hr : h.InRange)
    (hl : h.Legible) (hentries : ∀ entry ∈ entries, Ending entry.2)
    (hread : entries.foldlM readLine h = .ok h') : h'.InRange ∧ h'.Legible := by
  induction entries generalizing h with
  | nil =>
      cases hread
      exact ⟨hr, hl⟩
  | cons entry entries ih =>
      rw [List.foldlM_cons] at hread
      cases hline : readLine h entry with
      | error e => rw [hline] at hread; cases hread
      | ok next =>
          rw [hline] at hread
          have hnext : next.InRange ∧ next.Legible := by
            rw [readLine] at hline
            split at hline
            · rename_i rest hrest
              refine legible_of_apply hr hl (Ending.of_suffix ?_ ⟨['-', '-'], rfl⟩) hline
              rw [← Text.eq_append_of_dropStart? hrest]
              exact hentries entry List.mem_cons_self
            · cases hline
              exact ⟨hr, hl⟩
          exact ih hnext.1 hnext.2 (fun e he => hentries e (List.mem_cons_of_mem _ he)) hread

end Header

end Interleave
