import Interleave.EventTree.Mintrace
import Interleave.Proofs.Dump.RoundTrip
import Interleave.Proofs.EventTree.Decoding

/-!
# Which trees their mintrace gives back

A valid tree is read back from the text of its mintrace, every field of every step included,
exactly when the monitor that it names can stand at the end of a header line
(`ofText_render_toMintrace_iff`). Three layers are undone one after the other: the dump
(`Dump.parse_render_of_oneLine`), the lines (`readMintraceLine?_mintraceLine`) and the list of
withheld sends, which the lines only mark (`withheld_of_marks`).
-/

namespace Interleave.EventTree

open Text (Line Ending)

/-! ### What a valid tree looks like -/

/-- What `validate` has checked of the steps, the withheld sends and the bug step. -/
structure Valid (t : EventTree) : Prop where
  index : ∀ i (s : Step), t.steps[i]? = some s → s.index = i
  directChild : ∀ i (s : Step), t.steps[i]? = some s → ∀ c ∈ s.directChild, i < c ∧ c < t.size
  createdChild : ∀ i (s : Step), t.steps[i]? = some s → ∀ c ∈ s.createdChild, i < c ∧ c < t.size
  withheld : ∀ i ∈ t.withheld, ∃ s : Step, t.steps[i]? = some s ∧ s.kind = .send
  bugStep : ∀ n ∈ t.bugStep, n < t.size

theorem linkFault?_eq_none {size position : Nat} {kind : LinkKind} {child : Option Nat}
    (h : linkFault? size position kind child = none) : ∀ c ∈ child, position < c ∧ c < size := by
  rintro c rfl
  rw [linkFault?] at h
  split at h
  · cases h
  · omega

theorem valid_of_validate {t : EventTree} (h : t.validate = .ok t) : t.Valid := by
  have hfault : t.fault? = none := by
    rw [validate] at h
    split at h
    · cases h
    · assumption
  rw [fault?] at hfault
  split at hfault
  · cases hfault
  rename_i root hroot
  split at hfault
  · cases hfault
  simp only [Option.or_eq_none_iff] at hfault
  obtain ⟨⟨hsteps, hwithheld⟩, hbug⟩ := hfault
  have hstep : ∀ i s, t.steps[i]? = some s → stepFault? t.size i s = none := by
    intro i s hs
    rw [List.findSome?_eq_none_iff] at hsteps
    exact hsteps (s, i) (List.mem_zipIdx_iff_getElem?.mpr (by simpa using hs))
  have hparts : ∀ i s, t.steps[i]? = some s → s.index = i ∧
      linkFault? t.size i .direct s.directChild = none ∧
      linkFault? t.size i .created s.createdChild = none := by
    intro i s hs
    have hnone := hstep i s hs
    rw [stepFault?] at hnone
    split at hnone
    · cases hnone
    · rename_i hindex
      exact ⟨not_not.mp hindex, Option.or_eq_none_iff.mp hnone⟩
  refine ⟨fun i s hs => (hparts i s hs).1, fun i s hs => linkFault?_eq_none (hparts i s hs).2.1,
    fun i s hs => linkFault?_eq_none (hparts i s hs).2.2, fun i hi => ?_, fun n hn => ?_⟩
  · rw [Option.map_eq_none_iff, List.find?_eq_none] at hwithheld
    have hsend : t.steps[i]?.map (·.kind) = some .send := by simpa using hwithheld i hi
    obtain ⟨s, hs, hkind⟩ := Option.map_eq_some_iff.mp hsend
    exact ⟨s, hs, hkind⟩
  · rw [Option.map_eq_none_iff] at hbug
    rw [Option.mem_def.mp hn] at hbug
    by_contra hle
    simp [Option.filter, Nat.le_of_not_lt hle] at hbug

/-- A tree whose counts and indices fit in machine words. -/
structure Representable (t : EventTree) : Prop where
  size : t.size < UInt64.size
  signature : ∀ s ∈ t.steps, s.signature.InRange

theorem Valid.inRange {t : EventTree} (hv : t.Valid) (hr : t.Representable) {s : Step}
    (hs : s ∈ t.steps) : s.InRange := by
  obtain ⟨i, hi⟩ := Array.mem_iff_getElem?.mp hs
  have hlt : i < t.size := (Array.getElem?_eq_some_iff.mp hi).1
  have hsize := hr.size
  refine ⟨?_, fun n hn => ?_, fun n hn => ?_, hr.signature s hs⟩
  · rw [hv.index i s hi]
    omega
  · have := (hv.directChild i s hi n hn).2
    omega
  · have := (hv.createdChild i s hi n hn).2
    omega

theorem Valid.map_index {t : EventTree} (hv : t.Valid) :
    t.steps.toList.map (·.index) = List.range t.size := by
  refine List.ext_getElem? fun i => ?_
  rw [List.getElem?_map, Array.getElem?_toList]
  cases hs : t.steps[i]? with
  | none =>
      have hsize : t.size ≤ i := Array.getElem?_eq_none_iff.mp hs
      rw [List.getElem?_eq_none (by rw [List.length_range]; exact hsize)]
      rfl
  | some s =>
      have hlt : i < t.size := (Array.getElem?_eq_some_iff.mp hs).1
      rw [Option.map_some, hv.index i s hs, List.getElem?_range hlt]

/-! ### Lines -/

/-- The fields of the line of a step. -/
def lineSpec : List (String × Json.Presence) :=
  [("step", .required), ("withheld", .defaulted)]

/-- The values of the fields of the line of a step: an ordinary step has no mark. -/
def lineValues (t : EventTree) (s : Step) : List (Option Json) :=
  [some s.toJson, if t.isWithheld s.index then some (.bool true) else none]

theorem mintraceLine_eq (t : EventTree) (s : Step) :
    t.mintraceLine s = Json.compact (.record (Json.written lineSpec (t.lineValues s))) := by
  rw [mintraceLine, lineValues]
  cases t.isWithheld s.index <;> rfl

theorem plain_line (t : EventTree) (s : Step) :
    (Json.record (Json.written lineSpec (t.lineValues s))).Plain := by
  refine .written fun value hvalue j hj => ?_
  simp only [lineValues, List.mem_cons, List.not_mem_nil, or_false] at hvalue
  rcases hvalue with rfl | rfl
  · cases hj
    exact s.plain_toJson
  · cases hw : t.isWithheld s.index with
    | true =>
        rw [hw] at hj
        cases hj
        exact .bool true
    | false =>
        rw [hw] at hj
        cases hj

/-- The line of a step is read as the step and its mark. -/
theorem readMintraceLine?_mintraceLine (t : EventTree) {s : Step} (hs : s.InRange) :
    readMintraceLine? (t.mintraceLine s) = some (s, t.isWithheld s.index) := by
  have hfits : Json.Fits lineSpec (t.lineValues s) := by simp [Json.Fits, lineSpec, lineValues]
  have hfields := Json.fields_record hfits (by decide)
  rw [lineSpec] at hfields
  rw [readMintraceLine?, mintraceLine_eq, (t.plain_line s).parse?_compact]
  simp only [lineSpec, Option.bind_eq_bind, Option.bind_some, hfields]
  simp only [lineValues, Json.present, Step.ofJson?_toJson hs, Option.bind_some]
  cases t.isWithheld s.index <;> rfl

/-- The line of a step is one line of its own, and no header line. -/
theorem line_mintraceLine (t : EventTree) (s : Step) :
    Line (t.mintraceLine s).toList ∧ ¬ ['-', '-'] <+: (t.mintraceLine s).toList := by
  have hfeed := (t.plain_line s).not_mem_compactChars
  obtain ⟨inner, hinner⟩ : ∃ inner, (t.mintraceLine s).toList = '\x7b' :: inner ++ ['\x7d'] := by
    rw [mintraceLine_eq, Json.compact, String.toList_ofList]
    exact ⟨_, rfl⟩
  have hone : '\n' ∉ (t.mintraceLine s).toList := by
    rw [mintraceLine_eq, Json.compact, String.toList_ofList]
    exact hfeed
  rw [hinner] at hone ⊢
  refine ⟨⟨⟨hone, ?_⟩, List.cons_ne_nil _ _, rfl⟩, ?_⟩
  · rw [Text.endsBlank_append (List.cons_ne_nil _ _)]
    decide
  · rintro ⟨rest, hrest⟩
    cases hrest

theorem readMintraceLines_map (t : EventTree) {steps : List Step} (hs : ∀ s ∈ steps, s.InRange) :
    readMintraceLines (steps.map t.mintraceLine) =
      .ok (steps.map fun s => (s, t.isWithheld s.index)) := by
  rw [readMintraceLines]
  generalize 1 = first
  induction steps generalizing first with
  | nil => rfl
  | cons s steps ih =>
      have hrest := ih (fun x hx => hs x (List.mem_cons_of_mem _ hx)) (first + 1)
      rw [List.map_cons, List.zipIdx_cons, List.mapM_cons, hrest]
      simp only [readMintraceLine?_mintraceLine t (hs s List.mem_cons_self)]
      rfl

/-! ### Withheld sends -/

/-- The marks on the lines give the list of withheld sends back. -/
theorem withheld_of_marks {t : EventTree} (hv : t.Valid) :
    insertAllAscending [] (((t.steps.toList.map fun s =>
      (s, t.isWithheld s.index)).filter (·.2)).map (·.1.index)) = t.withheld := by
  have hmarked : ((t.steps.toList.map fun s => (s, t.isWithheld s.index)).filter (·.2)).map
      (·.1.index) = (List.range t.size).filter t.isWithheld := by
    rw [← hv.map_index, List.filter_map, List.filter_map, List.map_map]
    rfl
  rw [hmarked]
  refine (Ascending.insertAll _ .nil).eq_of_mem_iff t.ascending fun i => ?_
  rw [mem_insertAllAscending, List.mem_filter, List.mem_range, isWithheld, List.contains_iff_mem]
  constructor
  · rintro (hnil | ⟨-, h⟩)
    · cases hnil
    · exact h
  · intro h
    obtain ⟨s, hs, -⟩ := hv.withheld i h
    exact Or.inr ⟨(Array.getElem?_eq_some_iff.mp hs).1, h⟩

/-! ### Trees -/

/-- A dump with the lines and the result of a tree holds the tree. -/
theorem ofMintrace_of_lines {t : EventTree} (hvalid : t.validate = .ok t) (hr : t.Representable)
    {h : Header} (hmarked : h.isMintrace = true) (hfound : h.bugFound = t.bugFound)
    (hstep : h.bugStep = t.bugStep) (hmonitor : h.livenessMonitor = t.livenessMonitor) :
    ofMintrace ⟨h, .mintrace (t.steps.toList.map t.mintraceLine)⟩ = .ok t := by
  have hv := valid_of_validate hvalid
  have hlines : readMintraceLines (t.steps.toList.map t.mintraceLine) =
      .ok (t.steps.toList.map fun s => (s, t.isWithheld s.index)) :=
    readMintraceLines_map t fun s hs => hv.inRange hr (Array.mem_def.mpr hs)
  have hsteps : ((t.steps.toList.map fun s => (s, t.isWithheld s.index)).map (·.1)).toArray =
      t.steps := by
    simp [Function.comp_def]
  simp only [ofMintrace, hmarked, hlines, bind, Except.bind]
  simp only [hsteps, withheld_of_marks hv, hfound, hstep, hmonitor, hvalid]
  rfl

theorem eq_of_validate {t t' : EventTree} (h : t.validate.mapError TreeError.malformed = .ok t') :
    t = t' := by
  rw [validate] at h
  split at h
  · cases h
  · cases h
    rfl

/-- The result of a tree is that of the header that it was read under. -/
theorem livenessMonitor_of_ofMintrace {d : Dump} {t : EventTree} (h : ofMintrace d = .ok t) :
    t.livenessMonitor = d.header.livenessMonitor := by
  rw [ofMintrace] at h
  split at h
  · rename_i lines _ _
    cases hlines : readMintraceLines lines with
    | error e =>
        rw [hlines] at h
        cases h
    | ok entries =>
        rw [hlines] at h
        rw [← eq_of_validate h]
  · cases h

theorem toMintrace_marked (t : EventTree) (h : Header) :
    (t.toMintrace h).header.isMintrace = (t.toMintrace h).body.isMintrace :=
  rfl

theorem legible_body_toMintrace (t : EventTree) (h : Header) : (t.toMintrace h).body.Legible := by
  intro line hline
  obtain ⟨s, -, rfl⟩ := List.mem_map.mp hline
  exact t.line_mintraceLine s

/-- A valid tree is read back from the text of its mintrace, identical in every field, exactly when
its monitor, if it names one, is without line feeds and does not end in a blank. -/
theorem ofText_render_toMintrace_iff {t : EventTree} {h : Header} (hvalid : t.validate = .ok t)
    (hr : t.Representable) (hthreshold : ∀ n ∈ h.livenessThreshold, n < UInt64.size)
    (hmethod : ∀ name ∈ h.testMethod, '\n' ∉ name.toList) :
    ofText (t.toMintrace h).render = .ok t ↔
      ∀ name ∈ t.livenessMonitor, '\n' ∉ name.toList ∧ Text.endsBlank name.toList = false := by
  constructor
  · intro htext name hname
    rw [ofText] at htext
    cases hparse : Dump.parse (t.toMintrace h).render with
    | error e =>
        rw [hparse] at htext
        cases htext
    | ok d =>
        rw [hparse] at htext
        rw [livenessMonitor_of_ofMintrace (d := d) htext] at hname
        have hending := (Dump.legible_of_parse hparse).header.livenessMonitor name hname
        exact ⟨hending.oneLine, hending.trimmed⟩
  · intro hmonitor
    have hsize := hr.size
    have hrange : (t.toMintrace h).header.InRange := by
      refine ⟨hthreshold, fun n hn => ?_⟩
      have := (valid_of_validate hvalid).bugStep n hn
      omega
    have hparse := Dump.parse_render_of_oneLine hrange hmethod
      (fun name hname => (hmonitor name hname).1) (t.legible_body_toMintrace h)
      (t.toMintrace_marked h)
    have htrimmed : t.livenessMonitor.map Header.trimName = t.livenessMonitor := by
      cases hname : t.livenessMonitor with
      | none => rfl
      | some name =>
          have hend := hmonitor name hname
          rw [Option.map_some, Header.trimName_eq_self ⟨hend.1, hend.2⟩]
    rw [ofText, hparse]
    exact ofMintrace_of_lines (h := (t.toMintrace h).header.trimmed) hvalid hr rfl rfl rfl htrimmed

/-- A run that withheld a message, with a name that looks like a header line and holds a line feed,
and left a monitor hot. -/
def withheldGreeting : EventTree where
  steps := #[{ rootStep with directChild := some 1 },
    { index := 1
      kind := .send
      source := .harness
      target := ⟨1⟩
      event := some { name := "--say: \"hi\"\n", message := some ⟨7⟩ }
      directChild := none
      createdChild := none
      signature := ⟨some "--say: \"hi\"\n", 3, 9, ⟨2⟩, .integer 4⟩ }]
  withheld := [1]
  ascending := List.pairwise_singleton _ 1
  bugFound := true
  bugStep := some 1
  livenessMonitor := some "Turn"

theorem ofText_render_toMintrace_iff_of_withheldGreeting :
    withheldGreeting.validate = .ok withheldGreeting ∧ withheldGreeting.Representable ∧
    ofText (withheldGreeting.toMintrace {
      livenessThreshold := some 9, testMethod := some "all " }).render = .ok withheldGreeting := by
  have hvalid : withheldGreeting.validate = .ok withheldGreeting := rfl
  have hr : withheldGreeting.Representable := by
    refine ⟨by decide, fun s hs => ?_⟩
    have hs' : s = withheldGreeting.steps[0] ∨ s = withheldGreeting.steps[1] := by
      simpa [withheldGreeting] using hs
    rcases hs' with rfl | rfl
    · exact ⟨by decide, by decide⟩
    · exact ⟨by decide, by decide⟩
  refine ⟨hvalid, hr, (ofText_render_toMintrace_iff hvalid hr ?_ ?_).mpr ?_⟩
  · intro n hn
    obtain rfl := Option.some.inj hn
    decide
  · intro name hname
    obtain rfl := Option.some.inj hname
    decide
  · intro name hname
    obtain rfl := Option.some.inj hname
    decide

end Interleave.EventTree
