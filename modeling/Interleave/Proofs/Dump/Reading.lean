import Mathlib.Data.List.Forall2
import Mathlib.Logic.Relation
import Interleave.Proofs.Dump.Grammar

/-!
# What a text is read as

`Dump.Reading` says what the numbered lines of a text are read as: the first header line that
misstates a number is blamed, wherever it stands; otherwise the mark of a mintrace, on any line,
keeps the other lines as they are; otherwise the first line that is no decision is blamed, or the
decisions are taken in order. `Dump.parse` gives exactly this reading
(`Dump.parse_eq_iff`), and what it accepts depends on the header lines among themselves and on the
other lines among themselves only (`Dump.Reading.congr`). So an accepted text may be laid out in
another way (`Dump.Relaid`) and still denotes the same dump.
-/

namespace Interleave.Dump

/-! ### Written lines -/

/-- A line without the carriage return that may stand at its end. -/
def dropReturn (line : List Char) : List Char :=
  if line.getLast? = some '\r' then line.dropLast else line

/-- A line without its carriage return and without the blanks at its ends. -/
def stripped (line : List Char) : List Char :=
  Text.trim (dropReturn line)

/-- The lines of a text with their numbers, stripped; blank ones are left out. -/
def writtenLines (text : String) : List (Nat × List Char) :=
  ((((text.toList.splitOn '\n').map stripped).zipIdx 1).map Prod.swap).filter
    fun entry => entry.2 ≠ []

/-- Whether a stripped line is a header line. -/
def isHeader (line : List Char) : Bool :=
  decide (['-', '-'] <+: line)

/-- The header lines, in order. -/
def headerTexts (lines : List (Nat × List Char)) : List (List Char) :=
  (lines.map Prod.snd).filter isHeader

/-- The lines of the body, in order. -/
def bodyOf (lines : List (Nat × List Char)) : List (Nat × List Char) :=
  lines.filter fun entry => !isHeader entry.2

/-- No header line misstates a number. -/
def HeaderInOrder (lines : List (Nat × List Char)) : Prop :=
  ∀ text ∈ headerTexts lines, ∀ key value, ¬Header.Misstates text key value

/-- What numbered lines are read as. -/
inductive Reading (lines : List (Nat × List Char)) : Except DumpError Dump → Prop
  /-- The first header line that misstates a number is blamed, whatever stands in front of it. -/
  | badHeader {before after : List (Nat × List Char)} {line : Nat} {text value : List Char}
      {key : String} (split : lines = before ++ (line, text) :: after)
      (first : HeaderInOrder before) (bad : Header.Misstates text key value) :
      Reading lines (.error (.invalidHeader line key (String.ofList value)))
  /-- A mark on any line makes the other lines those of a mintrace. -/
  | mintrace {h : Header} (inOrder : HeaderInOrder lines) (said : h.SaidBy (headerTexts lines))
      (marked : Header.bare "is-mintrace" ∈ headerTexts lines) :
      Reading lines (.ok ⟨h, .mintrace ((bodyOf lines).map fun entry => String.ofList entry.2)⟩)
  /-- Without the mark the first line that is no decision is blamed. -/
  | badEntry {before after : List (Nat × List Char)} {line : Nat} {text : List Char}
      (inOrder : HeaderInOrder lines) (unmarked : Header.bare "is-mintrace" ∉ headerTexts lines)
      (split : bodyOf lines = before ++ (line, text) :: after)
      (first : ∀ entry ∈ before, ∃ d, Decision.Written entry.2 d)
      (bad : ∀ d, ¬Decision.Written text d) :
      Reading lines (.error (.invalidEntry line (String.ofList text)))
  /-- Without the mark the lines are the decisions of a schedule. -/
  | schedule {h : Header} {ds : List Decision} (inOrder : HeaderInOrder lines)
      (said : h.SaidBy (headerTexts lines))
      (unmarked : Header.bare "is-mintrace" ∉ headerTexts lines)
      (written : List.Forall₂ (fun entry d => Decision.Written entry.2 d) (bodyOf lines) ds) :
      Reading lines (.ok ⟨h, .schedule ds.toArray⟩)

theorem stripped_eq (line : List Char) : stripped line = Text.trim line := by
  rw [stripped, dropReturn]
  split
  · rename_i hlast
    have hline : line = [] ++ line.dropLast ++ ['\r'] := by
      rw [List.nil_append, List.dropLast_append_getLast? _ hlast]
    conv_rhs => rw [hline]
    exact (Text.trim_pad (List.forall_mem_nil _) (List.forall_mem_singleton.mpr (by decide)) _).symm
  · rfl

theorem numberedLines_eq_filter (text : String) :
    numberedLines text =
      ((((Text.lines text.toList).map Text.trim).zipIdx 1).map Prod.swap).filter
        fun entry => entry.2 ≠ [] := by
  rw [numberedLines]
  generalize Text.lines text.toList = lines
  generalize 1 = number
  induction lines generalizing number with
  | nil => rfl
  | cons line lines ih =>
      by_cases hline : Text.trim line = []
      · simp [List.zipIdx_cons, hline, ih]
      · simp [List.zipIdx_cons, hline, ih]

/-- The lines that are read are the written ones. -/
theorem numberedLines_eq (text : String) : numberedLines text = writtenLines text := by
  rw [numberedLines_eq_filter, writtenLines, List.map_congr_left fun line _ => stripped_eq line]
  -- a line feed at the end of the text leaves an empty line behind, which is blank
  rcases Text.splitOn_eq_lines text.toList with h | h
  · rw [h]
  · rw [h, List.map_append, List.zipIdx_append, List.map_append, List.filter_append]
    exact (List.append_nil _).symm

theorem isHeader_iff {line : List Char} : isHeader line = true ↔ ['-', '-'] <+: line :=
  decide_eq_true_iff

theorem isNone_headerText? (line : List Char) : (headerText? line).isNone = !isHeader line := by
  rw [Bool.eq_iff_iff, Option.isNone_iff_eq_none, headerText?_eq_none_iff, Bool.not_eq_true',
    ← Bool.not_eq_true, isHeader_iff]

theorem bodyEntries_eq (text : String) : bodyEntries text = bodyOf (writtenLines text) := by
  rw [bodyEntries, numberedLines_eq, bodyOf]
  exact List.filter_congr fun entry _ => isNone_headerText? entry.2

/-! ### Header lines -/

theorem headerTexts_cons_header {line : Nat} {rest : List Char}
    (lines : List (Nat × List Char)) :
    headerTexts ((line, ['-', '-'] ++ rest) :: lines) =
      (['-', '-'] ++ rest) :: headerTexts lines :=
  List.filter_cons_of_pos (isHeader_iff.mpr ⟨rest, rfl⟩)

theorem headerTexts_cons_body {line : Nat} {text : List Char} (h : isHeader text = false)
    (lines : List (Nat × List Char)) : headerTexts ((line, text) :: lines) = headerTexts lines :=
  List.filter_cons_of_neg (by simp [h])

theorem readLine_header (h : Header) (line : Nat) (rest : List Char) :
    h.readLine (line, ['-', '-'] ++ rest) = h.apply line rest := by
  rw [Header.readLine, headerText?, Text.dropStart?_append]

theorem readLine_body (h : Header) (line : Nat) {text : List Char} (hbody : isHeader text = false) :
    h.readLine (line, text) = .ok h := by
  have hnone : headerText? text = none := by
    rw [← Option.isNone_iff_eq_none, isNone_headerText?, hbody]
    rfl
  rw [Header.readLine, hnone]

/-- Lines that are in order make up the header that they say. -/
theorem saidBy_of_inOrder {lines : List (Nat × List Char)} (horder : HeaderInOrder lines)
    {h : Header} {texts : List (List Char)} (hs : h.SaidBy texts) :
    ∃ h', lines.foldlM Header.readLine h = .ok h' ∧ h'.SaidBy (texts ++ headerTexts lines) := by
  -- what the header lines read so far say is the invariant
  induction lines generalizing h texts with
  | nil =>
      refine ⟨h, rfl, ?_⟩
      rwa [headerTexts, List.map_nil, List.filter_nil, List.append_nil]
  | cons entry lines ih =>
      obtain ⟨line, text⟩ := entry
      cases hheader : isHeader text with
      | true =>
          obtain ⟨rest, rfl⟩ := isHeader_iff.mp hheader
          rw [HeaderInOrder, headerTexts_cons_header, List.forall_mem_cons] at horder
          obtain ⟨h₁, happly, hs₁⟩ := hs.apply horder.1 line
          obtain ⟨h₂, hfold, hs₂⟩ := ih horder.2 hs₁
          refine ⟨h₂, ?_, ?_⟩
          · rw [List.foldlM_cons, readLine_header, happly]
            exact hfold
          · rwa [headerTexts_cons_header, List.append_cons]
      | false =>
          rw [HeaderInOrder, headerTexts_cons_body hheader] at horder
          obtain ⟨h₂, hfold, hs₂⟩ := ih horder hs
          refine ⟨h₂, ?_, ?_⟩
          · rw [List.foldlM_cons, readLine_body h line hheader]
            exact hfold
          · rwa [headerTexts_cons_body hheader]

theorem exists_readHeader {lines : List (Nat × List Char)} (horder : HeaderInOrder lines) :
    ∃ h, readHeader lines = .ok h ∧ h.SaidBy (headerTexts lines) := by
  obtain ⟨h, hread, hs⟩ := saidBy_of_inOrder horder Header.saidBy_nil
  exact ⟨h, hread, hs⟩

/-- The first line that misstates a number stops the reading. -/
theorem readHeader_of_misstates {before after : List (Nat × List Char)} {line : Nat}
    {text value : List Char} {key : String} (first : HeaderInOrder before)
    (bad : Header.Misstates text key value) :
    readHeader (before ++ (line, text) :: after) =
      .error (.invalidHeader line key (String.ofList value)) := by
  obtain ⟨h, hread, -⟩ := exists_readHeader first
  obtain rfl : text = ['-', '-'] ++ (key.toList ++ [':'] ++ value) := bad.shape
  rw [readHeader_eq] at hread
  rw [readHeader_eq, List.foldlM_append, hread]
  change ((line, ['-', '-'] ++ _) :: after).foldlM Header.readLine h = _
  rw [List.foldlM_cons, readLine_header, Header.apply_of_misstates bad]
  rfl

/-! ### Decisions -/

theorem readDecision_of_written {entry : Nat × List Char} {d : Decision}
    (h : Decision.Written entry.2 d) : readDecision entry = .ok d := by
  rw [readDecision, Decision.ofChars?_eq_some_iff.mpr h]

theorem readDecision_of_not_written {entry : Nat × List Char}
    (h : ∀ d, ¬Decision.Written entry.2 d) :
    readDecision entry = .error (.invalidEntry entry.1 (String.ofList entry.2)) := by
  have hnone : Decision.ofChars? entry.2 = none :=
    Option.eq_none_iff_forall_not_mem.mpr fun d hd => h d (Decision.ofChars?_eq_some_iff.mp hd)
  rw [readDecision, hnone]

theorem mapM_readDecision_of_written {entries : List (Nat × List Char)} {ds : List Decision}
    (h : List.Forall₂ (fun entry d => Decision.Written entry.2 d) entries ds) :
    entries.mapM readDecision = .ok ds := by
  induction h with
  | nil => rfl
  | cons hd _ ih =>
      rw [List.mapM_cons, readDecision_of_written hd, ih]
      rfl

theorem mapM_readDecision_of_not_written {before after : List (Nat × List Char)} {line : Nat}
    {text : List Char} (first : ∀ entry ∈ before, ∃ d, Decision.Written entry.2 d)
    (bad : ∀ d, ¬Decision.Written text d) :
    (before ++ (line, text) :: after).mapM readDecision =
      .error (.invalidEntry line (String.ofList text)) := by
  induction before with
  | nil =>
      have hbad : readDecision (line, text) = _ := readDecision_of_not_written bad
      rw [List.nil_append, List.mapM_cons, hbad]
      rfl
  | cons entry before ih =>
      obtain ⟨⟨d, hd⟩, hrest⟩ := List.forall_mem_cons.mp first
      rw [List.cons_append, List.mapM_cons, readDecision_of_written hd, ih hrest]
      rfl

theorem exists_written {entries : List (Nat × List Char)}
    (h : ∀ entry ∈ entries, ∃ d, Decision.Written entry.2 d) :
    ∃ ds, List.Forall₂ (fun entry d => Decision.Written entry.2 d) entries ds := by
  induction entries with
  | nil => exact ⟨[], .nil⟩
  | cons entry entries ih =>
      obtain ⟨⟨d, hd⟩, hrest⟩ := List.forall_mem_cons.mp h
      obtain ⟨ds, hds⟩ := ih hrest
      exact ⟨d :: ds, .cons hd hds⟩

/-! ### The reading of a text -/

theorem parse_of_reading {text : String} {r : Except DumpError Dump}
    (h : Reading (writtenLines text) r) : parse text = r := by
  have hmark : ∀ {h : Header}, h.SaidBy (headerTexts (writtenLines text)) →
      Header.bare "is-mintrace" ∉ headerTexts (writtenLines text) → h.isMintrace = false := by
    intro h said unmarked
    exact Bool.eq_false_iff.mpr fun hmark => unmarked (said.isMintrace.mp hmark)
  cases h with
  | badHeader split first bad =>
      rw [parse, numberedLines_eq, split, readHeader_of_misstates first bad]
      rfl
  | @mintrace h inOrder said marked =>
      -- the header that is read is the one that the lines say
      obtain ⟨h', hread, said'⟩ := exists_readHeader inOrder
      obtain rfl := said'.unique said
      rw [← numberedLines_eq] at hread
      rw [parse_eq hread, said.isMintrace.mpr marked, bodyEntries_eq]
      rfl
  | badEntry inOrder unmarked split first bad =>
      obtain ⟨h, hread, said⟩ := exists_readHeader inOrder
      rw [← numberedLines_eq] at hread
      rw [parse_eq hread, hmark said unmarked, bodyEntries_eq, split,
        mapM_readDecision_of_not_written first bad]
      rfl
  | @schedule h ds inOrder said unmarked written =>
      obtain ⟨h', hread, said'⟩ := exists_readHeader inOrder
      obtain rfl := said'.unique said
      rw [← numberedLines_eq] at hread
      rw [parse_eq hread, hmark said unmarked, bodyEntries_eq,
        mapM_readDecision_of_written written]
      rfl

/-- Either a property holds of all elements, or there is a first one that lacks it. -/
theorem forall_or_first {α : Type} (p : α → Prop) (l : List α) :
    (∀ a ∈ l, p a) ∨ ∃ before a after, l = before ++ a :: after ∧ (∀ b ∈ before, p b) ∧ ¬p a := by
  classical
  induction l with
  | nil => exact Or.inl fun a ha => absurd ha List.not_mem_nil
  | cons a l ih =>
      by_cases ha : p a
      · rcases ih with hall | ⟨before, b, after, rfl, hbefore, hb⟩
        · exact Or.inl (List.forall_mem_cons.mpr ⟨ha, hall⟩)
        · exact Or.inr ⟨a :: before, b, after, rfl, List.forall_mem_cons.mpr ⟨ha, hbefore⟩, hb⟩
      · exact Or.inr ⟨[], a, l, rfl, fun b hb => absurd hb List.not_mem_nil, ha⟩

theorem headerInOrder_iff {lines : List (Nat × List Char)} :
    HeaderInOrder lines ↔
      ∀ entry ∈ lines, ∀ key value, ¬Header.Misstates entry.2 key value := by
  constructor
  · intro h entry hentry key value hbad
    have hheader : isHeader entry.2 = true := isHeader_iff.mpr ⟨_, hbad.shape.symm⟩
    exact h entry.2 (List.mem_filter.mpr ⟨List.mem_map_of_mem hentry, hheader⟩) key value hbad
  · intro h text htext
    obtain ⟨entry, hentry, rfl⟩ := List.mem_map.mp (List.mem_filter.mp htext).1
    exact h entry hentry

/-- Every text is read as something. -/
theorem exists_reading (lines : List (Nat × List Char)) : ∃ r, Reading lines r := by
  rcases forall_or_first (fun entry => ∀ key value, ¬Header.Misstates entry.2 key value) lines with
    horder | ⟨before, ⟨line, text⟩, after, hsplit, hfirst, hbad⟩
  · replace horder := headerInOrder_iff.mpr horder
    obtain ⟨h, -, said⟩ := exists_readHeader horder
    by_cases marked : Header.bare "is-mintrace" ∈ headerTexts lines
    · exact ⟨_, .mintrace horder said marked⟩
    rcases forall_or_first (fun entry => ∃ d, Decision.Written entry.2 d) (bodyOf lines) with
      hall | ⟨before, ⟨line, text⟩, after, hsplit, hfirst, hbad⟩
    · obtain ⟨ds, hds⟩ := exists_written hall
      exact ⟨_, .schedule horder said marked hds⟩
    · exact ⟨_, .badEntry horder marked hsplit hfirst (not_exists.mp hbad)⟩
  · push Not at hbad
    obtain ⟨key, value, hbad⟩ := hbad
    exact ⟨_, .badHeader hsplit (headerInOrder_iff.mpr hfirst) hbad⟩

theorem parse_eq_iff {text : String} {r : Except DumpError Dump} :
    parse text = r ↔ Reading (writtenLines text) r := by
  refine ⟨?_, parse_of_reading⟩
  rintro rfl
  obtain ⟨r, hr⟩ := exists_reading (writtenLines text)
  rwa [parse_of_reading hr]

/-! ### Layout -/

/-- The header lines among lines as they stand in a text. -/
def headersIn (lines : List (List Char)) : List (List Char) :=
  (lines.map stripped).filter isHeader

/-- The lines of the body among lines as they stand in a text. -/
def bodyIn (lines : List (List Char)) : List (List Char) :=
  (lines.map stripped).filter fun line => line ≠ [] && !isHeader line

/-- One change to the layout of lines. Carriage returns are blanks like any others. -/
inductive Shifts : List (List Char) → List (List Char) → Prop
  /-- A blank line is put in. -/
  | blank (before after : List (List Char)) {line : List Char}
      (blank : ∀ c ∈ line, Text.isBlank c = true) :
      Shifts (before ++ after) (before ++ line :: after)
  /-- Blanks are put around a line. -/
  | pad (before after : List (List Char)) (line : List Char) {left right : List Char}
      (blankLeft : ∀ c ∈ left, Text.isBlank c = true)
      (blankRight : ∀ c ∈ right, Text.isBlank c = true) :
      Shifts (before ++ line :: after) (before ++ (left ++ line ++ right) :: after)
  /-- A header line and a line of the body change places. -/
  | swap (before after : List (List Char)) {header line : List Char}
      (dashed : isHeader (stripped header) = true) (undashed : isHeader (stripped line) = false) :
      Shifts (before ++ header :: line :: after) (before ++ line :: header :: after)

/-- The two texts differ by one change to the layout of their lines. -/
def Relaid (text text' : String) : Prop :=
  Shifts (text.toList.splitOn '\n') (text'.toList.splitOn '\n')

theorem map_snd_writtenLines (text : String) :
    (writtenLines text).map Prod.snd =
      ((text.toList.splitOn '\n').map stripped).filter (· ≠ []) := by
  rw [writtenLines]
  have hcomm := List.filter_map (p := fun line => decide (line ≠ [])) (f := Prod.snd)
    (l := (((text.toList.splitOn '\n').map stripped).zipIdx 1).map Prod.swap)
  rw [Function.comp_def] at hcomm
  rw [← hcomm, List.map_map]
  exact congrArg (List.filter _) (List.zipIdx_map_fst 1 _)

theorem headerTexts_writtenLines (text : String) :
    headerTexts (writtenLines text) = headersIn (text.toList.splitOn '\n') := by
  rw [headerTexts, map_snd_writtenLines, List.filter_filter, headersIn]
  refine List.filter_congr fun line _ => ?_
  cases line with
  | nil => rfl
  | cons c line => simp

theorem map_snd_bodyOf_writtenLines (text : String) :
    (bodyOf (writtenLines text)).map Prod.snd = bodyIn (text.toList.splitOn '\n') := by
  have hcomm := List.filter_map (p := fun line => !isHeader line) (f := Prod.snd)
    (l := writtenLines text)
  rw [Function.comp_def] at hcomm
  rw [bodyOf, ← hcomm, map_snd_writtenLines, List.filter_filter, bodyIn]
  exact List.filter_congr fun line _ => Bool.and_comm _ _

theorem Shifts.headersIn_eq {lines lines' : List (List Char)} (h : Shifts lines lines') :
    headersIn lines = headersIn lines' := by
  cases h with
  | blank before after blank =>
      simp [headersIn, stripped_eq, Text.trim_eq_nil blank, isHeader]
  | pad before after line blankLeft blankRight =>
      simp only [headersIn, stripped_eq, List.map_append, List.map_cons,
        Text.trim_pad blankLeft blankRight]
  | swap before after dashed undashed =>
      simp [headersIn, dashed, undashed]

theorem Shifts.bodyIn_eq {lines lines' : List (List Char)} (h : Shifts lines lines') :
    bodyIn lines = bodyIn lines' := by
  cases h with
  | blank before after blank =>
      simp [bodyIn, stripped_eq, Text.trim_eq_nil blank]
  | pad before after line blankLeft blankRight =>
      simp only [bodyIn, stripped_eq, List.map_append, List.map_cons,
        Text.trim_pad blankLeft blankRight]
  | swap before after dashed undashed =>
      simp [bodyIn, List.filter_cons, dashed]

/-- What lines are accepted as depends on the header lines and on the lines of the body, each
among themselves. -/
theorem Reading.congr {lines lines' : List (Nat × List Char)} {d : Dump}
    (hheader : headerTexts lines = headerTexts lines')
    (hbody : (bodyOf lines).map Prod.snd = (bodyOf lines').map Prod.snd)
    (h : Reading lines (.ok d)) : Reading lines' (.ok d) := by
  cases h with
  | mintrace inOrder said marked =>
      have hlines : ∀ entries : List (Nat × List Char),
          entries.map (fun entry => String.ofList entry.2) =
            (entries.map Prod.snd).map String.ofList := by
        intro entries
        rw [List.map_map]
        rfl
      rw [hlines, hbody, ← hlines]
      rw [HeaderInOrder, hheader] at inOrder
      rw [hheader] at said marked
      exact .mintrace inOrder said marked
  | schedule inOrder said unmarked written =>
      rw [HeaderInOrder, hheader] at inOrder
      rw [hheader] at said unmarked
      refine .schedule inOrder said unmarked ?_
      rw [← List.forall₂_map_left_iff (f := Prod.snd)] at written ⊢
      rwa [← hbody]

theorem Relaid.parse_iff {text text' : String} (h : Relaid text text') (d : Dump) :
    parse text = .ok d ↔ parse text' = .ok d := by
  have hheader : headerTexts (writtenLines text) = headerTexts (writtenLines text') := by
    rw [headerTexts_writtenLines, headerTexts_writtenLines, Shifts.headersIn_eq h]
  have hbody : (bodyOf (writtenLines text)).map Prod.snd =
      (bodyOf (writtenLines text')).map Prod.snd := by
    rw [map_snd_bodyOf_writtenLines, map_snd_bodyOf_writtenLines, Shifts.bodyIn_eq h]
  rw [parse_eq_iff, parse_eq_iff]
  exact ⟨Reading.congr hheader hbody, Reading.congr hheader.symm hbody.symm⟩

/-- A text is parsed into its reading: the first header line that misstates a number is blamed
before any decision is, and otherwise the mark of a mintrace, the first line that is no decision, or
the decisions count, in this order. Changes to the layout, made and taken back any number of times,
leave an accepted text the same dump. -/
theorem parse_reads_grammar (text : String) :
    (∀ r, parse text = r ↔ Reading (writtenLines text) r) ∧
    ∀ text', Relation.EqvGen Relaid text text' → ∀ d, parse text = .ok d ↔ parse text' = .ok d := by
  refine ⟨fun r => parse_eq_iff, fun text' h d => ?_⟩
  induction h with
  | rel text text' h => exact h.parse_iff d
  | refl text => exact Iff.rfl
  | symm text text' _ ih => exact ih.symm
  | trans text middle text' _ _ first second => exact first.trans second

/-- A wrong number is blamed behind a line that is no decision, and a text keeps its dump when the
header line moves, a blank line is put in and a decision is indented and ended by a carriage
return. -/
theorem parse_reads_grammar_of_moved_header :
    parse "nonsense\n--bug-step:x" = .error (.invalidHeader 2 "bug-step" "x") ∧
    Relation.EqvGen Relaid "--bug-step:7\nint:+03" "\n  int:+03\r\n--bug-step:7" ∧
    parse "\n  int:+03\r\n--bug-step:7" =
      .ok ⟨{ bugStep := some 7 }, .schedule #[.integer 3]⟩ := by
  have hbad : Header.Misstates "--bug-step:x".toList "bug-step" "x".toList := by
    refine ⟨by decide, Or.inr rfl, ?_⟩
    rintro n ⟨ds, hds | hds, -, hdigits, -⟩
    · exact absurd (hdigits 'x' (by rw [← hds]; decide)) (by decide)
    · exact absurd hds (by simp)
  have hlines : writtenLines "nonsense\n--bug-step:x" =
      [(1, "nonsense".toList), (2, "--bug-step:x".toList)] := by decide
  have hmoved : Relation.EqvGen Relaid "--bug-step:7\nint:+03" "\n  int:+03\r\n--bug-step:7" := by
    have hswap : Relaid "--bug-step:7\nint:+03" "int:+03\n--bug-step:7" :=
      @Shifts.swap [] [] "--bug-step:7".toList "int:+03".toList (by decide) (by decide)
    have hpad : Relaid "int:+03\n--bug-step:7" "  int:+03\r\n--bug-step:7" :=
      @Shifts.pad [] ["--bug-step:7".toList] "int:+03".toList [' ', ' '] ['\r']
        (List.forall_mem_cons.mpr ⟨by decide, List.forall_mem_singleton.mpr (by decide)⟩)
        (List.forall_mem_singleton.mpr (by decide))
    have hblank : Relaid "  int:+03\r\n--bug-step:7" "\n  int:+03\r\n--bug-step:7" :=
      @Shifts.blank [] ["  int:+03\r".toList, "--bug-step:7".toList] [] (List.forall_mem_nil _)
    exact .trans _ _ _ (.rel _ _ hswap) (.trans _ _ _ (.rel _ _ hpad) (.rel _ _ hblank))
  refine ⟨((parse_reads_grammar _).1 _).mpr ?_, hmoved, ?_⟩
  · refine @Reading.badHeader _ [(1, "nonsense".toList)] [] 2 _ _ _ hlines ?_ hbad
    have hnone : headerTexts [(1, "nonsense".toList)] = [] := by decide
    rw [HeaderInOrder, hnone]
    exact fun text htext => absurd htext List.not_mem_nil
  · exact (((parse_reads_grammar _).2 _ hmoved) _).mp (by decide)

end Interleave.Dump
