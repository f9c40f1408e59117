import Interleave.Proofs.EventTree.HappensBefore

/-!
# The numbers in signatures

A signature says of which event a step is and which occurrence of it, so that the steps of different
runs can be compared. A recorder counts the occurrences by label and event name, its
`Happening.designation`, in a table that begins empty: the root, which is there before, is not
entered in it. So every signature counts the steps before that are designated alike, but for the
root (`Recorder.Signs`), a fact that each call keeps since it changes table and signatures as one
appended step does or not at all (`Recorder.ledger_after`). The signatures of two steps with one
label are different then, except that the first start without an event has the one of the root
(`Recorder.signatures_tell_apart_unless_root`).
-/

namespace Interleave

/-! ## Designations -/

namespace Happening

/-- What occurrences are counted by: the label and the name of the event. -/
def designation (a : Happening) : String × Option String :=
  (a.kind.label, a.event.map (·.name))

/-- The signature of what happens at the given place after the given happenings, from which the root
is left out. -/
def signature (a : Happening) (place : Nat) (before : List Happening) : Signature where
  eventName := a.event.map (·.name)
  occurrence := (before.map designation).count a.designation
  index := place
  source := a.source
  kind := a.kind

end Happening

namespace EventTree

/-- The designations of the steps, in order. -/
def designations (t : EventTree) : List (String × Option String) :=
  t.happenings.map Happening.designation

/-- The signatures of the steps, in order. -/
def signatures (t : EventTree) : List Signature :=
  t.steps.toList.map (·.signature)

/-- The number of steps before the place that are designated as the step at this place is. -/
def precedents (t : EventTree) (place : Nat) (step : Step) : Nat :=
  (t.designations.take place).count step.happening.designation

theorem getElem?_designations_of_step {t : EventTree} {k : Nat} {step : Step}
    (h : t.steps[k]? = some step) : t.designations[k]? = some step.happening.designation := by
  rw [designations, List.getElem?_map, getElem?_happenings_of_step h]
  rfl

theorem getElem?_signatures_of_step {t : EventTree} {k : Nat} {step : Step}
    (h : t.steps[k]? = some step) : t.signatures[k]? = some step.signature := by
  rw [signatures, List.getElem?_map, Array.getElem?_toList, h]
  rfl

end EventTree

/-- The step is a start without an event, as the root is. -/
def Step.IsBareStart (s : Step) : Prop :=
  s.kind = .start ∧ s.event = none

instance : DecidablePred Step.IsBareStart := fun s =>
  inferInstanceAs (Decidable (s.kind = .start ∧ s.event = none))

theorem Step.designation_eq_root_iff {step : Step} :
    EventTree.rootStep.happening.designation = step.happening.designation ↔ step.IsBareStart := by
  have hlabel : step.kind.label = "Start" ↔ step.kind = .start := by
    cases step.kind <;> simp [StepKind.label]
  have hroot : EventTree.rootStep.happening.designation = ("Start", none) := rfl
  rw [hroot, eq_comm, Happening.designation, Prod.mk.injEq, Option.map_eq_none_iff]
  exact and_congr_left fun _ => hlabel

/-! ## Entries behind the first one -/

section Tail

variable {α : Type} {l : List α} {x : α} {i j : Nat}

/-- What stands behind the first entry and in front of a place. -/
theorem mem_tail_take_iff : x ∈ (l.take j).tail ↔ ∃ k, 0 < k ∧ k < j ∧ l[k]? = some x := by
  rw [List.mem_iff_getElem?]
  constructor
  · rintro ⟨k, hk⟩
    rw [List.getElem?_tail, List.getElem?_take] at hk
    split at hk
    · exact ⟨k + 1, Nat.succ_pos k, ‹_›, hk⟩
    · cases hk
  · rintro ⟨k, hpos, hlt, hk⟩
    obtain ⟨k, rfl⟩ := Nat.exists_eq_add_one.mpr hpos
    refine ⟨k, ?_⟩
    rw [List.getElem?_tail, List.getElem?_take, if_pos hlt, hk]

/-- In front of a later place there is one more of an entry that stands in between. -/
theorem count_tail_take_lt [BEq α] [LawfulBEq α] (hpos : 0 < i) (hlt : i < j)
    (hx : l[i]? = some x) : (l.take i).tail.count x < (l.take j).tail.count x := by
  have hnonempty : l.take i ≠ [] := by
    have hlength := (List.getElem?_eq_some_iff.mp hx).1
    rw [← List.length_pos_iff, List.length_take]
    omega
  have hstep : (l.take (i + 1)).tail = (l.take i).tail ++ [x] := by
    rw [List.take_add_one, hx, List.tail_append_of_ne_nil hnonempty]
    rfl
  have hsub : (l.take (i + 1)).tail.Sublist (l.take j).tail :=
    (List.take_sublist_take_left hlt).tail
  calc (l.take i).tail.count x
      < (l.take i).tail.count x + 1 := Nat.lt_succ_self _
    _ = (l.take (i + 1)).tail.count x := by rw [hstep, List.count_append, List.count_singleton_self]
    _ ≤ (l.take j).tail.count x := hsub.count_le x

end Tail

namespace Recorder

/-! ## What recorders count -/

/-- All that the numbers in signatures have to do with. -/
def ledger (r : Recorder) :
    List Happening × List Signature × List ((String × Option String) × Nat) :=
  (r.tree.happenings, r.tree.signatures, r.occurrences)

/-- The table of a recorder counts what happened after the root, and the signatures of its tree say
what happened and how often that had happened after the root. -/
structure Signs (r : Recorder) : Prop where
  root : r.tree.happenings.head? = some EventTree.rootStep.happening
  table : ∀ d, (r.occurrences.lookup d).getD 0 =
    (r.tree.happenings.tail.map Happening.designation).count d
  signed : ∀ (k : Nat) (a : Happening), r.tree.happenings[k]? = some a →
    r.tree.signatures[k]? = some (a.signature k (r.tree.happenings.take k).tail)

theorem signs_empty : empty.Signs where
  root := rfl
  table _ := rfl
  signed k a h := by
    cases k with
    | zero =>
        cases h
        rfl
    | succ k => cases h

theorem Signs.of_ledger {r r' : Recorder} (h : r.Signs) (heq : r'.ledger = r.ledger) :
    r'.Signs := by
  obtain ⟨hhappenings, hrest⟩ := Prod.mk.inj heq
  obtain ⟨hsignatures, hoccurrences⟩ := Prod.mk.inj hrest
  constructor
  · rw [hhappenings]
    exact h.root
  · rw [hhappenings, hoccurrences]
    exact h.table
  · rw [hhappenings, hsignatures]
    exact h.signed

/-- A step that is appended is entered in the table and signed. -/
theorem Signs.append {r : Recorder} (h : r.Signs) (a : Happening) :
    (r.append a.kind a.source a.target a.event).2.Signs := by
  have hhappenings : (r.append a.kind a.source a.target a.event).2.tree.happenings =
      r.tree.happenings ++ [a] := map_steps_append r _ _ _ _ fun _ _ => rfl
  have hsignatures : (r.append a.kind a.source a.target a.event).2.tree.signatures =
      r.tree.signatures ++ [(r.newStep a.kind a.source a.target a.event).signature] :=
    map_steps_append r _ _ _ _ fun _ _ => rfl
  have hlength : r.tree.signatures.length = r.tree.happenings.length := by
    simp [EventTree.signatures, EventTree.happenings]
  have hnonempty : r.tree.happenings ≠ [] := by
    intro hnil
    have hroot := h.root
    rw [hnil] at hroot
    cases hroot
  have htail : (r.tree.happenings ++ [a]).tail = r.tree.happenings.tail ++ [a] :=
    List.tail_append_of_ne_nil hnonempty
  -- the new step is signed with what the table says
  have hnew : (r.newStep a.kind a.source a.target a.event).signature =
      a.signature r.tree.happenings.length r.tree.happenings.tail := by
    rw [Happening.signature, ← h.table a.designation, r.tree.length_happenings]
    rfl
  constructor
  · rw [hhappenings, List.head?_append, h.root]
    rfl
  · intro d
    rw [hhappenings, htail, List.map_append, List.count_append, ← h.table d]
    show ((assoc a.designation (((r.occurrences.lookup a.designation).getD 0) + 1)
      r.occurrences).lookup d).getD 0 = _
    rw [lookup_assoc]
    by_cases hd : d = a.designation
    · simp [hd]
    · have hne : ¬a.designation = d := fun heq => hd heq.symm
      simp [hd, hne]
  · intro k b hb
    rw [hhappenings] at hb ⊢
    rw [hsignatures]
    rcases Linkage.lt_or_eq_of_getElem?_concat hb with ⟨hlt, hold⟩ | ⟨rfl, rfl⟩
    · rw [List.getElem?_append_left (hlength.symm ▸ hlt), List.take_append_of_le_length
        (Nat.le_of_lt hlt)]
      exact h.signed k b hold
    · rw [← hlength, List.getElem?_concat_length, hlength, List.take_left, hnew]

/-! ## Calls -/

theorem ledger_link (r : Recorder) (parent child : Nat) :
    (r.link parent child).ledger = r.ledger := by
  have hhappenings : (r.link parent child).tree.happenings = r.tree.happenings :=
    map_steps_link r parent child fun _ _ => rfl
  have hsignatures : (r.link parent child).tree.signatures = r.tree.signatures :=
    map_steps_link r parent child fun _ _ => rfl
  rw [ledger, hhappenings, hsignatures]
  rfl

/-- A notice enters one step, or nothing. -/
theorem ledger_record (r : Recorder) (n : Notice) :
    (r.record n).ledger = match n.happening? with
      | some a => (r.append a.kind a.source a.target a.event).2.ledger
      | none => r.ledger := by
  cases n with
  | created creator created => rfl
  | started id initial =>
      by_cases hid : id = .harness
      · simp only [Notice.happening?, if_pos hid, record, recordStart]
      · simp only [Notice.happening?, if_neg hid, record, recordStart]
        split
        · exact ledger_link _ _ _
        · rfl
  | received receiver event =>
      simp only [Notice.happening?, record, recordReceive]
      split
      · exact ledger_link _ _ _
      · rfl
  | chosen id choice => rfl
  | monitored monitor sender hot =>
      simp only [Notice.happening?, record, recordMonitor]
      split
      · split <;> rfl
      · rfl

/-- A call enters what happens at it, and nothing else. -/
theorem ledger_after (r : Recorder) (c : Call) :
    (r.after c).ledger = match c.happening? with
      | some a => (r.append a.kind a.source a.target a.event).2.ledger
      | none => r.ledger := by
  cases c with
  | notice n => exact ledger_record r n
  | send sender target event =>
      rw [Recorder.after, recordSend_eq]
      rfl
  | withhold send =>
      simp only [Recorder.after, markWithheld, Call.happening?]
      split
      · split <;> rfl
      · rfl
  | finish bug =>
      rcases bug with _ | bug
      · rfl
      · cases bug <;> rfl

theorem Signs.after {r : Recorder} (h : r.Signs) (c : Call) : (r.after c).Signs := by
  have hledger := r.ledger_after c
  cases hc : c.happening? with
  | some a =>
      rw [hc] at hledger
      exact (h.append a).of_ledger hledger
  | none =>
      rw [hc] at hledger
      exact h.of_ledger hledger

/-- Whatever calls are made, the signatures count what happened after the root. -/
theorem signs_afterAll (calls : List Call) : (empty.afterAll calls).Signs := by
  induction calls using List.reverseRecOn with
  | nil => exact signs_empty
  | append_singleton calls c ih =>
      rw [afterAll_concat]
      exact ih.after c

/-! ## The signatures of a tree -/

section Tree

variable {r : Recorder} (h : r.Signs)

include h

theorem Signs.signature_eq {i : Nat} {step : Step} (hstep : r.tree.steps[i]? = some step) :
    step.signature = step.happening.signature i (r.tree.happenings.take i).tail := by
  have hsigned := h.signed i _ (EventTree.getElem?_happenings_of_step hstep)
  rw [EventTree.getElem?_signatures_of_step hstep] at hsigned
  exact Option.some.inj hsigned

theorem Signs.occurrence_eq {i : Nat} {step : Step} (hstep : r.tree.steps[i]? = some step) :
    step.signature.occurrence =
      (r.tree.designations.take i).tail.count step.happening.designation := by
  rw [h.signature_eq hstep, EventTree.designations, ← List.map_take, ← List.map_tail]
  rfl

/-- The root is among the precedents of a step and not among its counted ones. -/
theorem Signs.precedents_eq {i : Nat} {step : Step} (hstep : r.tree.steps[i]? = some step) :
    r.tree.precedents i step =
      step.signature.occurrence + if 0 < i ∧ step.IsBareStart then 1 else 0 := by
  rw [EventTree.precedents, h.occurrence_eq hstep]
  cases i with
  | zero => simp
  | succ i =>
      obtain ⟨rest, hrest⟩ : ∃ rest, r.tree.designations =
          EventTree.rootStep.happening.designation :: rest := by
        obtain ⟨others, hothers⟩ := List.head?_eq_some_iff.mp h.root
        exact ⟨others.map Happening.designation, by rw [EventTree.designations, hothers]; rfl⟩
      rw [hrest, List.take_succ_cons, List.tail_cons, List.count_cons]
      simp only [beq_iff_eq, Step.designation_eq_root_iff, Nat.succ_pos, true_and]

theorem Signs.happening_root {step : Step} (hstep : r.tree.steps[0]? = some step) :
    step.happening = EventTree.rootStep.happening := by
  have hhead := h.root
  rw [List.head?_eq_getElem?, EventTree.getElem?_happenings_of_step hstep] at hhead
  exact Option.some.inj hhead

/-- A start without an event has the number zero if it is the first one behind the root. -/
theorem Signs.occurrence_eq_zero_iff {j : Nat} {step : Step} (hpos : 0 < j)
    (hstep : r.tree.steps[j]? = some step) (hbare : step.IsBareStart) :
    step.signature.occurrence = 0 ↔ r.tree.IsNext Step.IsBareStart 0 j := by
  rw [h.occurrence_eq hstep, ← Step.designation_eq_root_iff.mpr hbare, List.count_eq_zero]
  constructor
  · intro hnot
    refine ⟨hpos, ⟨step, hstep, hbare⟩, ?_⟩
    intro k other hbehind hbefore hother hbare'
    apply hnot
    rw [Step.designation_eq_root_iff.mpr hbare']
    exact mem_tail_take_iff.mpr
      ⟨k, hbehind, hbefore, EventTree.getElem?_designations_of_step hother⟩
  · intro hnext hmem
    -- no step in between is a start without an event
    obtain ⟨k, hbehind, hbefore, hk⟩ := mem_tail_take_iff.mp hmem
    rw [EventTree.designations, List.getElem?_map] at hk
    obtain ⟨c, hc, heq⟩ := Option.map_eq_some_iff.mp hk
    obtain ⟨other, hother, rfl⟩ := EventTree.exists_step_of_happening hc
    exact hnext.first k other hbehind hbefore hother (Step.designation_eq_root_iff.mp heq.symm)

/-- The signatures of two steps are equal if they are of the same event and have one number. -/
theorem Signs.agrees_iff_identity {i j : Nat} {a b : Step} (ha : r.tree.steps[i]? = some a)
    (hb : r.tree.steps[j]? = some b) :
    a.signature.agrees b.signature = true ↔
      a.eventName = b.eventName ∧ a.signature.occurrence = b.signature.occurrence := by
  have hname : a.signature.eventName = a.eventName ∧ b.signature.eventName = b.eventName :=
    ⟨by rw [h.signature_eq ha]; rfl, by rw [h.signature_eq hb]; rfl⟩
  rw [Signature.agrees, beq_iff_eq, Signature.identity, Signature.identity, Prod.mk.injEq,
    hname.1, hname.2]

/-- Of two steps with one label the signatures are equal if the first one is the root and the other
one the next start without an event, and in no other case. -/
theorem Signs.agrees_iff {i j : Nat} {a b : Step} (hlt : i < j) (ha : r.tree.steps[i]? = some a)
    (hb : r.tree.steps[j]? = some b) (hlabel : a.kind.label = b.kind.label) :
    a.signature.agrees b.signature = true ↔ i = 0 ∧ r.tree.IsNext Step.IsBareStart 0 j := by
  rw [h.agrees_iff_identity ha hb]
  constructor
  · rintro ⟨hevent, hcount⟩
    have hsame : a.happening.designation = b.happening.designation := Prod.ext hlabel hevent
    -- a first step behind the root would be counted for the other one
    have hfirst : i = 0 := by
      by_contra hne
      have hthere := EventTree.getElem?_designations_of_step ha
      have hmore := count_tail_take_lt (Nat.pos_of_ne_zero hne) hlt hthere
      rw [h.occurrence_eq ha, h.occurrence_eq hb, ← hsame] at hcount
      omega
    subst hfirst
    rw [h.happening_root ha] at hsame
    refine ⟨rfl, (h.occurrence_eq_zero_iff hlt hb (Step.designation_eq_root_iff.mp hsame)).mp ?_⟩
    rw [← hcount, h.occurrence_eq ha]
    rfl
  · rintro ⟨rfl, hnext⟩
    obtain ⟨step, hstep, hbare⟩ := hnext.holds
    obtain rfl := Option.some.inj (hstep.symm.trans hb)
    have hsame := Step.designation_eq_root_iff.mpr hbare
    rw [← h.happening_root ha] at hsame
    refine ⟨(Prod.mk.inj hsame).2, ?_⟩
    rw [(h.occurrence_eq_zero_iff hlt hstep hbare).mpr hnext, h.occurrence_eq ha]
    rfl

end Tree

/-- Signatures number the steps of a tree, with one slip. Whatever calls are made to a fresh
recorder, the signature of a step says what happened at it, and its occurrence is the number of
steps before it with the same label and the same event name, or both without an event. Only for a
start without an event it is one less, since the root is one too and is not counted. So of two steps
with the same label the signatures are different, unless one is the root and the other the first
start without an event behind it: these two have the same. -/
theorem signatures_tell_apart_unless_root (calls : List Call) :
    let t := (empty.afterAll calls).tree
    (∀ (i : Nat) (step : Step), t.steps[i]? = some step →
      step.signature.eventName = step.eventName ∧ step.signature.index = i ∧
      step.signature.source = step.source ∧ step.signature.kind = step.kind ∧
      t.precedents i step =
        step.signature.occurrence + if 0 < i ∧ step.IsBareStart then 1 else 0) ∧
    ∀ (i j : Nat) (a b : Step), i < j → t.steps[i]? = some a → t.steps[j]? = some b →
      a.kind.label = b.kind.label →
      (a.signature.agrees b.signature = true ↔ i = 0 ∧ t.IsNext Step.IsBareStart 0 j) := by
  intro t
  have h : (empty.afterAll calls).Signs := signs_afterAll calls
  refine ⟨?_, fun i j a b => h.agrees_iff⟩
  intro i step hstep
  have hsignature := h.signature_eq hstep
  refine ⟨?_, ?_, ?_, ?_, h.precedents_eq hstep⟩
  all_goals
    rw [hsignature]
    rfl

/-- An operation is created and started. -/
def startedChild : List Call :=
  [.notice (.created .harness ⟨1⟩), .notice (.started ⟨1⟩ none)]

/-- The start of the operation is the second start without an event, after the root, and it has the
signature of the root. -/
theorem signatures_collide_of_startedChild :
    let t := (empty.afterAll startedChild).tree
    ∃ root step, t.steps[0]? = some root ∧ t.steps[2]? = some step ∧
      step.kind.label = root.kind.label ∧ t.precedents 2 step = 1 ∧
      step.signature.occurrence = 0 ∧ root.signature.agrees step.signature = true := by
  refine ⟨_, _, rfl, rfl, ?_⟩
  decide

end Recorder

end Interleave
