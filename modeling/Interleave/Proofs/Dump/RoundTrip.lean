import Interleave.Proofs.Dump.HeaderLines

/-!
# Which dumps their text gives back

`Dump.parse` reads what `Dump.render` writes line by line, so a dump comes back exactly when every
part of it stands on a line of its own and survives the trimming of that line
(`parse_render_iff`). One direction is a reading of the written text: the header lines are read in
any position (`Header.reads_lines`), and so are the decisions (`Decision.ofChars?_text`). The other
needs no writing at all: whatever a text is parsed into is `Legible`.
-/

namespace Interleave

open Text (Line Ending)

/-! ### Decisions -/

namespace Decision

/-- A decision whose text stands on one line. -/
def OneLine (d : Decision) : Prop :=
  ∀ fairness b, d = .fairBoolean fairness b → '\n' ∉ fairness.toList

theorem readBool?_showBool (b : Bool) : readBool? (showBool b).toList = some b := by
  cases b <;> rfl

theorem line_showBool (b : Bool) : Line (showBool b).toList := by
  cases b <;> decide

theorem text_schedule (id : OperationId) :
    (schedule id).text.toList = "sched".toList ++ ':' :: Text.decimal id.value.toNat := by
  rw [text, OperationId.text, Text.showNat, String.toList_append,
    String.toList_ofList (l := Text.decimal _)]
  rfl

theorem text_boolean (b : Bool) :
    (boolean b).text.toList = "bool".toList ++ ':' :: (showBool b).toList := by
  rw [text, String.toList_append]
  rfl

theorem text_fairBoolean (fairness : String) (b : Bool) :
    (fairBoolean fairness b).text.toList =
      "fair-bool".toList ++ ':' :: (fairness.toList ++ ':' :: (showBool b).toList) := by
  rw [text, String.toList_append, String.toList_append, String.toList_append, List.append_assoc,
    List.append_assoc]
  rfl

theorem text_integer (n : UInt32) :
    (integer n).text.toList = "int".toList ++ ':' :: Text.decimal n.toNat := by
  rw [text, Text.showNat, String.toList_append, String.toList_ofList (l := Text.decimal _)]
  rfl

/-- How the text behind a kind is read. -/
theorem ofChars?_append {kind : List Char} (h : ':' ∉ kind) (rest : List Char) :
    ofChars? (kind ++ ':' :: rest) =
      if kind = "sched".toList then
        (Text.unsigned? UInt64.size rest).map fun n => schedule ⟨n.toUInt64⟩
      else if kind = "bool".toList then (readBool? rest).map boolean
      else if kind = "int".toList then
        (Text.unsigned? UInt32.size rest).map fun n => integer n.toUInt32
      else if kind = "fair-bool".toList then
        (Text.splitLast? ':' rest).bind fun parts =>
          (readBool? parts.2).map (fairBoolean (String.ofList parts.1))
      else none := by
  rw [ofChars?, Text.splitFirst?_append h]
  simp only [Option.map_eq_bind]
  rfl

theorem ofChars?_text (d : Decision) : ofChars? d.text.toList = some d := by
  cases d with
  | schedule id =>
      rw [text_schedule, ofChars?_append (by decide), if_pos rfl,
        Text.unsigned?_decimal (UInt64.toNat_lt_size id.value), Option.map_some,
        Nat.toUInt64_eq, UInt64.ofNat_toNat]
  | boolean b =>
      rw [text_boolean, ofChars?_append (by decide), if_neg (by decide), if_pos rfl,
        readBool?_showBool, Option.map_some]
  | fairBoolean fairness b =>
      have hb : ':' ∉ (showBool b).toList := by cases b <;> decide
      rw [text_fairBoolean, ofChars?_append (by decide), if_neg (by decide), if_neg (by decide),
        if_neg (by decide), if_pos rfl, Text.splitLast?_append hb, Option.bind_some,
        readBool?_showBool, Option.map_some, String.ofList_toList]
  | integer n =>
      rw [text_integer, ofChars?_append (by decide), if_neg (by decide), if_neg (by decide),
        if_pos rfl, Text.unsigned?_decimal (UInt32.toNat_lt_size n), Option.map_some,
        Nat.toUInt32_eq, UInt32.ofNat_toNat]

theorem line_text {d : Decision} (h : d.OneLine) : Line d.text.toList := by
  cases d with
  | schedule id =>
      rw [text_schedule, List.append_cons]
      exact Line.append (by decide) (Text.ending_decimal _)
  | boolean b =>
      rw [text_boolean, List.append_cons]
      exact Line.append (by decide) (line_showBool b).toEnding
  | fairBoolean fairness b =>
      -- the identity may itself end in blanks: what ends the line is the word behind it
      have hword : Ending (':' :: (showBool b).toList) := by
        cases b <;> decide
      have hend : Ending (fairness.toList ++ ':' :: (showBool b).toList) :=
        hword.append (h fairness b rfl) (List.cons_ne_nil _ _)
      rw [text_fairBoolean, List.append_cons]
      exact Line.append (by decide) hend
  | integer n =>
      rw [text_integer, List.append_cons]
      exact Line.append (by decide) (Text.ending_decimal _)

/-- No decision looks like a header line. -/
theorem headerText?_text (d : Decision) : Dump.headerText? d.text.toList = none := by
  cases d with
  | schedule id => rw [text_schedule]; rfl
  | boolean b => rw [text_boolean]; rfl
  | fairBoolean fairness b => rw [text_fairBoolean]; rfl
  | integer n => rw [text_integer]; rfl

/-- A decision that is read from one line has its fairness identity on that line. -/
theorem oneLine_of_ofChars? {cs : List Char} {d : Decision} (hcs : '\n' ∉ cs)
    (h : ofChars? cs = some d) : d.OneLine := by
  rintro fairness b rfl
  obtain ⟨⟨kind, rest⟩, hfirst, -⟩ := Option.bind_eq_some_iff.mp h
  have hkind := Text.not_mem_of_splitFirst? hfirst
  obtain rfl := Text.eq_append_of_splitFirst? hfirst
  rw [ofChars?_append hkind] at h
  have hrest : '\n' ∉ rest := fun hmem =>
    hcs (List.mem_append_right _ (List.mem_cons_of_mem _ hmem))
  split at h
  · simp at h
  split at h
  · simp at h
  split at h
  · simp at h
  split at h
  · obtain ⟨⟨id, word⟩, hlast, h⟩ := Option.bind_eq_some_iff.mp h
    obtain ⟨value, -, hvalue⟩ := Option.map_eq_some_iff.mp h
    cases hvalue
    rw [Text.eq_append_of_splitLast? hlast] at hrest
    rw [String.toList_ofList]
    exact fun hmem => hrest (List.mem_append_left _ hmem)
  · cases h

end Decision

/-! ### Dumps -/

namespace Dump

/-- Whether the body is that of a mintrace. -/
def Body.isMintrace : Body → Bool
  | .schedule _ => false
  | .mintrace _ => true

/-- The entries of a body stand on lines of their own, and none is taken for a header line. -/
def Body.Legible : Body → Prop
  | .schedule s => ∀ d ∈ s, d.OneLine
  | .mintrace lines =>
    ∀ line ∈ lines, Line line.toList ∧ ¬ ['-', '-'] <+: line.toList

/-- A dump that its text gives back. -/
structure Legible (d : Dump) : Prop where
  range : d.header.InRange
  header : d.header.Legible
  body : d.body.Legible
  marked : d.header.isMintrace = d.body.isMintrace

theorem headerText?_eq_none_iff (text : List Char) :
    headerText? text = none ↔ ¬ ['-', '-'] <+: text := by
  constructor
  · rintro h ⟨rest, rfl⟩
    rw [headerText?, Text.dropStart?_append] at h
    cases h
  · intro h
    cases hrest : headerText? text with
    | none => rfl
    | some rest => exact absurd ⟨rest, (Text.eq_append_of_dropStart? hrest).symm⟩ h

/-- What the body of a text is read from: its lines in order, trimmed, without the blank ones. -/
theorem map_snd_numberedLines (text : String) :
    (numberedLines text).map Prod.snd =
      ((Text.lines text.toList).map Text.trim).filter (· ≠ []) := by
  rw [numberedLines]
  generalize Text.lines text.toList = lines
  generalize 1 = first
  induction lines generalizing first with
  | nil => rfl
  | cons line lines ih =>
      by_cases hline : Text.trim line = []
      · simp [List.zipIdx_cons, hline, ih]
      · simp [List.zipIdx_cons, hline, ih]

theorem line_of_mem_numberedLines {text : String} {entry : Nat × List Char}
    (h : entry ∈ numberedLines text) : Line entry.2 := by
  have hmem : entry.2 ∈ (numberedLines text).map Prod.snd := List.mem_map_of_mem h
  rw [map_snd_numberedLines] at hmem
  obtain ⟨htrim, hne⟩ := List.mem_filter.mp hmem
  obtain ⟨raw, hraw, heq⟩ := List.mem_map.mp htrim
  have hone : '\n' ∉ entry.2 := by
    rw [← heq]
    exact fun hmem => Text.not_mem_of_mem_lines hraw (Text.mem_of_mem_trim hmem)
  have hend : Text.endsBlank entry.2 = false := by rw [← heq]; exact Text.endsBlank_trim raw
  have hstart : Text.startsBlank entry.2 = false := by rw [← heq]; exact Text.startsBlank_trim raw
  exact ⟨⟨hone, hend⟩, of_decide_eq_true hne, hstart⟩

/-- Lines of one line each, none of them blank, come back trimmed. -/
theorem map_snd_numberedLines_join {lines : List String}
    (hone : ∀ line ∈ lines, '\n' ∉ line.toList)
    (hblank : ∀ line ∈ lines, Text.trim line.toList ≠ []) :
    (numberedLines (String.join (lines.map (· ++ "\n")))).map Prod.snd = Header.trims lines := by
  have htext : (String.join (lines.map (· ++ "\n"))).toList =
      (lines.map String.toList).flatMap (· ++ ['\n']) := by
    simp [String.toList_join, List.flatMap_map]
  have hlines : Text.lines ((lines.map String.toList).flatMap (· ++ ['\n'])) =
      lines.map String.toList := by
    refine Text.lines_flatMap fun l hl => ?_
    obtain ⟨line, hline, rfl⟩ := List.mem_map.mp hl
    exact hone line hline
  rw [map_snd_numberedLines, htext, hlines, List.map_map, List.filter_eq_self.mpr]
  · rfl
  · intro text htext
    obtain ⟨line, hline, rfl⟩ := List.mem_map.mp htext
    exact decide_eq_true (hblank line hline)

theorem mapM_readDecision {entries : List (Nat × List Char)} {ds : List Decision}
    (h : entries.map Prod.snd = ds.map fun d => d.text.toList) :
    entries.mapM readDecision = .ok ds := by
  induction ds generalizing entries with
  | nil =>
      obtain rfl := List.map_eq_nil_iff.mp h
      rfl
  | cons d ds ih =>
      obtain ⟨entry, rest, rfl, hentry, hrest⟩ := List.map_eq_cons_iff.mp h
      have hread : readDecision entry = .ok d := by
        rw [readDecision, hentry, Decision.ofChars?_text]
      rw [List.mapM_cons, hread, ih hrest]
      rfl

theorem exists_of_mapM_readDecision {entries : List (Nat × List Char)} {ds : List Decision}
    (h : entries.mapM readDecision = .ok ds) {d : Decision} (hd : d ∈ ds) :
    ∃ entry ∈ entries, readDecision entry = .ok d := by
  induction entries generalizing ds with
  | nil =>
      cases h
      cases hd
  | cons entry entries ih =>
      rw [List.mapM_cons] at h
      cases hentry : readDecision entry with
      | error e => rw [hentry] at h; cases h
      | ok first =>
          cases hrest : entries.mapM readDecision with
          | error e => rw [hentry, hrest] at h; cases h
          | ok rest =>
              rw [hentry, hrest] at h
              cases h
              rcases List.mem_cons.mp hd with rfl | hd
              · exact ⟨entry, List.mem_cons_self, hentry⟩
              · obtain ⟨e, he, heq⟩ := ih hrest hd
                exact ⟨e, List.mem_cons_of_mem _ he, heq⟩

theorem ofChars?_of_readDecision {entry : Nat × List Char} {d : Decision}
    (h : readDecision entry = .ok d) : Decision.ofChars? entry.2 = some d := by
  rw [readDecision] at h
  split at h
  · rename_i hd
    cases h
    exact hd
  · cases h

theorem line_of_mem_bodyLines {d : Dump} (h : d.body.Legible) {line : String}
    (hline : line ∈ d.bodyLines) :
    Line line.toList ∧ headerText? line.toList = none := by
  obtain ⟨header, body⟩ := d
  cases body with
  | schedule s =>
      obtain ⟨decision, hmem, rfl⟩ := List.mem_map.mp hline
      exact ⟨Decision.line_text (h decision (Array.mem_def.mpr hmem)),
        Decision.headerText?_text decision⟩
  | mintrace lines => exact ⟨(h line hline).1, (headerText?_eq_none_iff _).mpr (h line hline).2⟩

theorem trims_bodyLines {d : Dump} (h : d.body.Legible) :
    Header.trims d.bodyLines = d.bodyLines.map String.toList :=
  List.map_congr_left fun _ hline => (line_of_mem_bodyLines h hline).1.trim

theorem trim_headerLine {rest : List Char} :
    Text.trim (['-', '-'] ++ rest) = ['-', '-'] ++ Text.trimEnd rest := by
  have hflush : Text.startsBlank (['-', '-'] ++ rest) = false := rfl
  rw [Text.trim_eq_trimEnd hflush, Text.trimEnd_append (by decide)]

/-- The numbered lines that are no header lines. -/
def bodyEntries (text : String) : List (Nat × List Char) :=
  (numberedLines text).filter fun entry => (headerText? entry.2).isNone

/-- A text is parsed into its header and, depending on its mark, its lines or their decisions. -/
theorem parse_eq {text : String} {h : Header} (hread : readHeader (numberedLines text) = .ok h) :
    parse text =
      if h.isMintrace then
        .ok ⟨h, .mintrace ((bodyEntries text).map fun entry => String.ofList entry.2)⟩
      else ((bodyEntries text).mapM readDecision).map fun ds => ⟨h, .schedule ds.toArray⟩ := by
  rw [parse, hread]
  cases hmark : h.isMintrace with
  | true => simp only [hmark, bind, Except.bind, if_true]; rfl
  | false =>
      have hmapM : ∀ r : Except DumpError (List Decision),
          (r >>= fun ds => pure (⟨h, .schedule ds.toArray⟩ : Dump)) =
            r.map fun ds => ⟨h, .schedule ds.toArray⟩ := by
        rintro (e | ds) <;> rfl
      rw [if_neg Bool.false_ne_true, ← hmapM]
      simp only [hmark, bind, Except.bind]
      rfl

theorem readHeader_eq (entries : List (Nat × List Char)) :
    readHeader entries = entries.foldlM Header.readLine {} :=
  rfl

/-- The text of a dump with a legible body is read as the dump with its names trimmed. -/
theorem parse_render_of_oneLine {d : Dump} (hr : d.header.InRange)
    (hmethod : ∀ name ∈ d.header.testMethod, '\n' ∉ name.toList)
    (hmonitor : ∀ name ∈ d.header.livenessMonitor, '\n' ∉ name.toList) (hb : d.body.Legible)
    (hmarked : d.header.isMintrace = d.body.isMintrace) :
    parse d.render = .ok { d with header := d.header.trimmed } := by
  have hdashes : ∀ line ∈ d.header.lines, ∃ rest, line.toList = ['-', '-'] ++ rest ∧ '\n' ∉ rest :=
    fun _ hline => Header.exists_of_mem_lines hmethod hmonitor hline
  have hentries : (numberedLines d.render).map Prod.snd =
      Header.trims d.header.lines ++ d.bodyLines.map String.toList := by
    rw [render, map_snd_numberedLines_join, Header.trims_append, trims_bodyLines hb]
    · intro line hline
      rcases List.mem_append.mp hline with hline | hline
      · obtain ⟨rest, htext, hrest⟩ := hdashes line hline
        rw [htext]
        exact fun hmem => hrest (by simpa using hmem)
      · exact (line_of_mem_bodyLines hb hline).1.oneLine
    · intro line hline
      rcases List.mem_append.mp hline with hline | hline
      · obtain ⟨rest, htext, -⟩ := hdashes line hline
        rw [htext, trim_headerLine]
        exact List.cons_ne_nil _ _
      · have hbody := (line_of_mem_bodyLines hb hline).1
        rw [hbody.trim]
        exact hbody.nonempty
  -- the two parts of the text: the header lines, and the lines that are no header lines
  have hheader : ∀ text ∈ Header.trims d.header.lines, (headerText? text).isNone = false := by
    intro text htext
    obtain ⟨line, hline, rfl⟩ := List.mem_map.mp htext
    obtain ⟨rest, heq, -⟩ := hdashes line hline
    rw [heq, trim_headerLine, headerText?, Text.dropStart?_append]
    rfl
  have hbody : ∀ text ∈ d.bodyLines.map String.toList, headerText? text = none := by
    intro text htext
    obtain ⟨line, hline, rfl⟩ := List.mem_map.mp htext
    exact (line_of_mem_bodyLines hb hline).2
  have hread : readHeader (numberedLines d.render) = .ok d.header.trimmed := by
    rw [readHeader_eq]
    exact (Header.reads_lines hr).append (Header.Reads.of_body hbody) _ hentries
  have hrest : (bodyEntries d.render).map Prod.snd = d.bodyLines.map String.toList := by
    have hfilter := List.filter_map (p := fun text => (headerText? text).isNone)
      (f := Prod.snd) (l := numberedLines d.render)
    rw [hentries, List.filter_append, List.filter_eq_nil_iff.mpr, List.filter_eq_self.mpr,
      List.nil_append] at hfilter
    · exact hfilter.symm
    · intro text htext
      rw [hbody text htext]
      rfl
    · intro text htext hnone
      rw [hheader text htext] at hnone
      cases hnone
  have hmark : d.header.trimmed.isMintrace = d.body.isMintrace := hmarked
  rw [parse_eq hread, hmark]
  obtain ⟨header, schedule | lines⟩ := d
  · have hmapM : (bodyEntries (Dump.render ⟨header, .schedule schedule⟩)).mapM readDecision =
        .ok schedule.toList := by
      refine mapM_readDecision ?_
      rw [hrest, bodyLines, List.map_map]
      rfl
    rw [hmapM]
    rfl
  · have hlines : (bodyEntries (Dump.render ⟨header, .mintrace lines⟩)).map
        (fun entry => String.ofList entry.2) = lines := by
      have hcomp := congrArg (List.map String.ofList) hrest
      simpa [bodyLines, Function.comp_def] using hcomp
    rw [hlines]
    rfl

/-- Whatever a text is parsed into is legible. -/
theorem legible_of_parse {text : String} {d : Dump} (h : parse text = .ok d) : d.Legible := by
  cases hread : readHeader (numberedLines text) with
  | error e =>
      rw [parse, hread] at h
      cases h
  | ok header =>
      have hheader : header.InRange ∧ header.Legible := by
        refine Header.legible_of_readLines ⟨?_, ?_⟩ ⟨?_, ?_⟩ ?_ hread
        · intro n hn; cases hn
        · intro n hn; cases hn
        · intro name hname; cases hname
        · intro name hname; cases hname
        · exact fun entry hentry => (line_of_mem_numberedLines hentry).toEnding
      have hentries : ∀ entry ∈ bodyEntries text, Line entry.2 ∧ headerText? entry.2 = none := by
        intro entry hentry
        obtain ⟨hmem, hnone⟩ := List.mem_filter.mp hentry
        exact ⟨line_of_mem_numberedLines hmem, Option.isNone_iff_eq_none.mp hnone⟩
      rw [parse_eq hread] at h
      cases hmark : header.isMintrace with
      | true =>
          rw [hmark, if_pos rfl] at h
          cases h
          refine ⟨hheader.1, hheader.2, ?_, hmark⟩
          intro line hline
          obtain ⟨entry, hentry, rfl⟩ := List.mem_map.mp hline
          obtain ⟨hl, hnone⟩ := hentries entry hentry
          rw [String.toList_ofList]
          exact ⟨hl, (headerText?_eq_none_iff _).mp hnone⟩
      | false =>
          rw [hmark, if_neg Bool.false_ne_true] at h
          cases hmapM : (bodyEntries text).mapM readDecision with
          | error e => rw [hmapM] at h; cases h
          | ok ds =>
              rw [hmapM] at h
              cases h
              refine ⟨hheader.1, hheader.2, ?_, hmark⟩
              intro d hd
              obtain ⟨entry, hentry, hd⟩ :=
                exists_of_mapM_readDecision hmapM (Array.mem_def.mp hd)
              exact Decision.oneLine_of_ofChars? (hentries entry hentry).1.oneLine
                (ofChars?_of_readDecision hd)

/-- A legible dump is read back. -/
theorem Legible.parse_render {d : Dump} (h : d.Legible) : parse d.render = .ok d := by
  rw [parse_render_of_oneLine h.range (fun name hname => (h.header.testMethod name hname).oneLine)
    (fun name hname => (h.header.livenessMonitor name hname).oneLine) h.body h.marked,
    h.header.trimmed]

theorem legible_ofSchedule {h : Header} (hr : h.InRange) (s : Schedule) :
    (ofSchedule h s).Legible ↔
      h.Legible ∧ ∀ fairness b, .fairBoolean fairness b ∈ s → '\n' ∉ fairness.toList := by
  constructor
  · intro hl
    refine ⟨⟨hl.header.testMethod, hl.header.livenessMonitor⟩, fun fairness b hmem => ?_⟩
    exact hl.body _ hmem fairness b rfl
  · rintro ⟨hl, hs⟩
    refine ⟨⟨hr.threshold, hr.bugStep⟩, ⟨hl.testMethod, hl.livenessMonitor⟩, ?_, rfl⟩
    rintro d hd fairness b rfl
    exact hs fairness b hd

theorem legible_ofMintrace {h : Header} (hr : h.InRange) (lines : List String) :
    (ofMintrace h lines).Legible ↔
      h.Legible ∧ ∀ line ∈ lines, Line line.toList ∧ ¬ ['-', '-'] <+: line.toList := by
  constructor
  · exact fun hl => ⟨⟨hl.header.testMethod, hl.header.livenessMonitor⟩, hl.body⟩
  · rintro ⟨hl, hlines⟩
    exact ⟨⟨hr.threshold, hr.bugStep⟩, ⟨hl.testMethod, hl.livenessMonitor⟩, hlines, rfl⟩

/-- A dump comes back from its text exactly when its names are the ends of lines and, for a
schedule, no fairness identity breaks its line, or, for a mintrace, every line is a trimmed line of
its own that is no header line. So every dump that was ever read comes back. -/
theorem parse_render_iff :
    (∀ (h : Header) (s : Schedule), h.InRange →
      (parse (ofSchedule h s).render = .ok (ofSchedule h s) ↔
        h.Legible ∧ ∀ fairness b, .fairBoolean fairness b ∈ s → '\n' ∉ fairness.toList)) ∧
    (∀ (h : Header) (lines : List String), h.InRange →
      (parse (ofMintrace h lines).render = .ok (ofMintrace h lines) ↔
        h.Legible ∧ ∀ line ∈ lines, Line line.toList ∧ ¬ ['-', '-'] <+: line.toList)) ∧
    ∀ (text : String) (d : Dump), parse text = .ok d → parse d.render = .ok d := by
  refine ⟨fun h s hr => ?_, fun h lines hr => ?_, fun text d hparse => ?_⟩
  · rw [← legible_ofSchedule hr]
    exact ⟨legible_of_parse, Legible.parse_render⟩
  · rw [← legible_ofMintrace hr]
    exact ⟨legible_of_parse, Legible.parse_render⟩
  · exact (legible_of_parse hparse).parse_render

/-- The header of a run that left a monitor hot. -/
def hotHeader : Header where
  livenessThreshold := some 9
  bugFound := true
  bugStep := some 2
  livenessMonitor := some "Turn"

/-- A fairness identity may hold colons and end in a blank, and may not hold a line feed. -/
theorem parse_render_iff_of_hotHeader :
    hotHeader.InRange ∧
    parse (ofSchedule hotHeader #[.fairBoolean "left: right " true, .schedule ⟨2⟩]).render =
      .ok (ofSchedule hotHeader #[.fairBoolean "left: right " true, .schedule ⟨2⟩]) ∧
    parse (ofSchedule hotHeader #[.fairBoolean "left\nright" true]).render ≠
      .ok (ofSchedule hotHeader #[.fairBoolean "left\nright" true]) := by
  have hr : hotHeader.InRange := by
    refine ⟨fun n hn => ?_, fun n hn => ?_⟩
    · obtain rfl := Option.some.inj hn
      decide
    · obtain rfl := Option.some.inj hn
      decide
  have hl : hotHeader.Legible := by
    refine ⟨fun name hname => ?_, fun name hname => ?_⟩
    · cases hname
    · obtain rfl := Option.some.inj hname
      decide
  refine ⟨hr, (parse_render_iff.1 _ _ hr).mpr ⟨hl, fun fairness b hmem => ?_⟩, fun hback => ?_⟩
  · obtain ⟨rfl, rfl⟩ : fairness = "left: right " ∧ b = true := by simpa using hmem
    decide
  · have hone := ((parse_render_iff.1 _ _ hr).mp hback).2 "left\nright" true (by simp)
    revert hone
    decide

end Dump

end Interleave
