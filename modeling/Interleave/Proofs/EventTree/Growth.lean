import Interleave.Proofs.EventTree.Hearing
import Interleave.Proofs.Tables

/-!
# Trees grow

While a run goes on its tree only grows: a later tree has every step of an earlier one at the same
place, with the same kind, source, target and event, keeps the links to next steps and marks the
same sends as withheld (`EventTree.Extends`). An exchange appends the step that is its deed, if it
has one, and links it from the latest step of the same operation (`Recorder.Grows`).
-/

namespace Interleave

/-- The step as it stands in a later tree of the run: links may have been added. -/
structure Step.Continues (s later : Step) : Prop where
  index : later.index = s.index
  kind : later.kind = s.kind
  source : later.source = s.source
  target : later.target = s.target
  event : later.event = s.event
  direct : ∀ child, s.directChild = some child → later.directChild = some child

theorem Step.Continues.refl (s : Step) : s.Continues s :=
  ⟨rfl, rfl, rfl, rfl, rfl, fun _ h => h⟩

theorem Step.Continues.trans {s s' s'' : Step} (h : s.Continues s') (h' : s'.Continues s'') :
    s.Continues s'' :=
  ⟨h'.index.trans h.index, h'.kind.trans h.kind, h'.source.trans h.source,
    h'.target.trans h.target, h'.event.trans h.event,
    fun child hchild => h'.direct child (h.direct child hchild)⟩

/-- A later tree of the run, or the tree of another run that starts with the same steps. -/
structure EventTree.Extends (t later : EventTree) : Prop where
  size : t.size ≤ later.size
  steps : ∀ (k : Nat) (step : Step), t.steps[k]? = some step →
    ∃ step', later.steps[k]? = some step' ∧ step.Continues step'
  withheld : ∀ k, k < t.size → later.isWithheld k = t.isWithheld k

/-- The result of a run does not count. -/
theorem EventTree.Extends.of_eq {t later : EventTree} (hsteps : later.steps = t.steps)
    (hwithheld : later.withheld = t.withheld) : t.Extends later where
  size := Nat.le_of_eq (congrArg Array.size hsteps).symm
  steps k step hstep := ⟨step, by rw [hsteps]; exact hstep, .refl step⟩
  withheld k _ := by
    unfold isWithheld
    rw [hwithheld]

theorem EventTree.Extends.refl (t : EventTree) : t.Extends t :=
  .of_eq rfl rfl

theorem EventTree.Extends.trans {t t' t'' : EventTree} (h : t.Extends t') (h' : t'.Extends t'') :
    t.Extends t'' where
  size := Nat.le_trans h.size h'.size
  steps k step hstep := by
    obtain ⟨step', hstep', hcontinues⟩ := h.steps k step hstep
    obtain ⟨step'', hstep'', hcontinues'⟩ := h'.steps k step' hstep'
    exact ⟨step'', hstep'', hcontinues.trans hcontinues'⟩
  withheld k hk := by
    rw [h'.withheld k (Nat.lt_of_lt_of_le hk h.size), h.withheld k hk]

/-- The step that an exchange makes: its kind, source and target. The start of the harness is there
before the run. -/
def Exchange.deed? : Exchange → Option (StepKind × OperationId × OperationId)
  | .notice (.created creator created) => some (.create, creator, created)
  | .notice (.started id _) => if id = .harness then none else some (.start, id, id)
  | .notice (.received receiver _) => some (.receive, receiver, receiver)
  | .notice (.chosen id choice) => some (.ofChoice choice, id, id)
  | .send sender target _ _ => some (.send, sender, target)
  | _ => none

/-- What is announced is not a send. -/
theorem Exchange.deed?_notice_ne_send {n : Notice} {source target : OperationId} :
    (Exchange.notice n).deed? ≠ some (.send, source, target) := by
  intro h
  cases n with
  | chosen id choice => cases choice <;> cases h
  | started id initial =>
      simp only [Exchange.deed?] at h
      split at h <;> cases h
  | _ => cases h

namespace Recorder

/-- The tables of a recording are in order: the latest step of an operation is its own and leads to
no other, and neither a pending creation or send nor one with a causal link is withheld. -/
structure Sound (r : Recorder) : Prop where
  latest : ∀ id k, r.latestOf id = some k →
    ∃ step, r.tree.steps[k]? = some step ∧ step.source = id ∧ step.directChild = none
  creates : ∀ id k, r.pendingCreates.lookup id = some k → k < r.tree.size ∧ k ∉ r.tree.withheld
  sends : ∀ id k, r.pendingSends.lookup id = some k → k < r.tree.size ∧ k ∉ r.tree.withheld
  withheld : ∀ k ∈ r.tree.withheld, ∃ step, r.tree.steps[k]? = some step ∧
    step.createdChild = none

theorem sound_empty : empty.Sound where
  latest id k h := by
    unfold latestOf empty at h
    rw [List.lookup_cons] at h
    split at h
    · rename_i heq
      cases h
      exact ⟨EventTree.rootStep, rfl, (eq_of_beq heq).symm, rfl⟩
    · cases h
  creates id k h := by cases h
  sends id k h := by cases h
  withheld k h := by cases h

theorem Sound.withheld_lt {r : Recorder} (h : r.Sound) {k : Nat} (hk : k ∈ r.tree.withheld) :
    k < r.tree.size := by
  obtain ⟨step, hstep, -⟩ := h.withheld k hk
  exact (Array.getElem?_eq_some_iff.mp hstep).1

/-- One recording is another one with one more step. -/
structure Grows (r : Recorder) (kind : StepKind) (source target : OperationId) (r' : Recorder) :
    Prop where
  sound : r'.Sound
  tree : r.tree.Extends r'.tree
  size : r'.tree.size = r.tree.size + 1
  latest : r'.latestOf source = some r.tree.size
  step : ∃ step, r'.tree.steps[r.tree.size]? = some step ∧ step.index = r.tree.size ∧
    step.kind = kind ∧ step.source = source ∧ step.target = target
  linked : ∀ k, r.latestOf source = some k →
    ∃ step, r'.tree.steps[k]? = some step ∧ step.directChild = some r.tree.size

/-! ## Appending a step -/

section Append

variable (r : Recorder) (kind : StepKind) (source target : OperationId) (event : Option Event)

/-- The step that is appended, without links. -/
def newStep : Step where
  index := r.tree.size
  kind := kind
  source := source
  target := target
  event := event
  directChild := none
  createdChild := none
  signature :=
    ⟨event.map (·.name), (r.occurrences.lookup (kind.label, event.map (·.name))).getD 0,
      r.tree.size, source, kind⟩

theorem getElem?_append (k : Nat) :
    (r.append kind source target event).2.tree.steps[k]? =
      if k = r.tree.size then some (r.newStep kind source target event)
      else (r.tree.steps[k]?).map fun step =>
        if r.latestOf source = some k then { step with directChild := some r.tree.size }
        else step := by
  unfold append
  dsimp only
  cases hlatest : r.latestOf source with
  | none =>
      have hsize : r.tree.steps.size = r.tree.size := rfl
      rw [Array.getElem?_push, hsize]
      by_cases hk : k = r.tree.size
      · rw [if_pos hk, if_pos hk]
        rfl
      · rw [if_neg hk, if_neg hk]
        simp
  | some previous =>
      have hsize : (linkDirect r.tree.steps previous r.tree.size).size = r.tree.size := by
        simp [linkDirect, EventTree.size]
      rw [Array.getElem?_push, hsize]
      by_cases hk : k = r.tree.size
      · rw [if_pos hk, if_pos hk]
        rfl
      · rw [if_neg hk, if_neg hk]
        simp only [linkDirect, Array.getElem?_modify, Option.some.injEq]
        by_cases hp : previous = k
        · simp [hp]
        · simp [hp]

theorem size_append : (r.append kind source target event).2.tree.size = r.tree.size + 1 := by
  unfold append
  dsimp only
  cases r.latestOf source <;> simp [EventTree.size, linkDirect]

theorem latestOf_append (id : OperationId) :
    (r.append kind source target event).2.latestOf id =
      if id = source then some r.tree.size else r.latestOf id := by
  have h := lookup_assoc source id r.tree.size r.latest
  simp only [beq_iff_eq] at h
  exact h

variable {r}

theorem getElem?_append_of_old {k : Nat} {step : Step} (hstep : r.tree.steps[k]? = some step) :
    (r.append kind source target event).2.tree.steps[k]? =
      some (if r.latestOf source = some k then { step with directChild := some r.tree.size }
        else step) := by
  have hne : k ≠ r.tree.size := Nat.ne_of_lt (Array.getElem?_eq_some_iff.mp hstep).1
  rw [getElem?_append, if_neg hne, hstep]
  rfl

theorem Sound.sound_append (h : r.Sound) : (r.append kind source target event).2.Sound where
  latest id k hk := by
    rw [latestOf_append] at hk
    by_cases hid : id = source
    · rw [if_pos hid, Option.some.injEq] at hk
      exact ⟨_, by rw [getElem?_append, if_pos hk.symm], hid.symm, rfl⟩
    · -- the latest step of another operation is not linked
      rw [if_neg hid] at hk
      obtain ⟨step, hstep, hsource, hdirect⟩ := h.latest id k hk
      have hother : r.latestOf source ≠ some k := by
        intro hsame
        obtain ⟨step', hstep', hsource', -⟩ := h.latest source k hsame
        rw [hstep] at hstep'
        cases hstep'
        exact hid (hsource.symm.trans hsource')
      refine ⟨step, ?_, hsource, hdirect⟩
      rw [getElem?_append_of_old kind source target event hstep, if_neg hother]
  creates id k hk := by
    obtain ⟨hk, hnot⟩ := h.creates id k hk
    rw [size_append]
    exact ⟨Nat.lt_succ_of_lt hk, hnot⟩
  sends id k hk := by
    obtain ⟨hk, hnot⟩ := h.sends id k hk
    rw [size_append]
    exact ⟨Nat.lt_succ_of_lt hk, hnot⟩
  withheld k hk := by
    obtain ⟨step, hstep, hcreated⟩ := h.withheld k hk
    refine ⟨_, getElem?_append_of_old kind source target event hstep, ?_⟩
    split <;> exact hcreated

theorem Sound.extends_append (h : r.Sound) :
    r.tree.Extends (r.append kind source target event).2.tree where
  size := by
    rw [size_append]
    exact Nat.le_succ _
  steps k step hstep := by
    refine ⟨_, getElem?_append_of_old kind source target event hstep, ?_⟩
    split
    · rename_i hsame
      -- a step that is linked now has not been linked before
      obtain ⟨step', hstep', -, hdirect⟩ := h.latest source k hsame
      rw [hstep] at hstep'
      cases hstep'
      refine ⟨rfl, rfl, rfl, rfl, rfl, fun child hchild => ?_⟩
      rw [hdirect] at hchild
      cases hchild
    · exact .refl step
  withheld _ _ := rfl

theorem Sound.append (h : r.Sound) :
    r.Grows kind source target (r.append kind source target event).2 where
  sound := h.sound_append kind source target event
  tree := h.extends_append kind source target event
  size := size_append r kind source target event
  latest := by rw [latestOf_append, if_pos rfl]
  step := ⟨_, by rw [getElem?_append, if_pos rfl], rfl, rfl, rfl, rfl⟩
  linked k hk := by
    obtain ⟨step, hstep, -, -⟩ := h.latest source k hk
    exact ⟨_, getElem?_append_of_old kind source target event hstep, by simp [hk]⟩

end Append

/-! ## Links, tables and marks -/

variable {r r' : Recorder} {kind : StepKind} {source target : OperationId}

theorem getElem?_link (r : Recorder) (parent child k : Nat) :
    (r.link parent child).tree.steps[k]? = (r.tree.steps[k]?).map fun step =>
      if parent = k then { step with createdChild := some child } else step := by
  simp only [Recorder.link, linkCreated, Array.getElem?_modify]
  by_cases hk : parent = k
  · simp [hk]
  · simp [hk]

theorem size_link (r : Recorder) (parent child : Nat) :
    (r.link parent child).tree.size = r.tree.size := by
  simp [Recorder.link, linkCreated, EventTree.size]

/-- A causal link changes nothing about a step that matters to the others. -/
theorem exists_step_link (parent child : Nat) {k : Nat} {step : Step}
    (hstep : r.tree.steps[k]? = some step) :
    ∃ step', (r.link parent child).tree.steps[k]? = some step' ∧ step.Continues step' ∧
      step'.directChild = step.directChild := by
  refine ⟨_, by rw [getElem?_link, hstep]; rfl, ?_⟩
  split
  · exact ⟨⟨rfl, rfl, rfl, rfl, rfl, fun _ h => h⟩, rfl⟩
  · exact ⟨.refl step, rfl⟩

theorem Sound.link (h : r.Sound) {parent : Nat} (child : Nat)
    (hnot : parent ∉ r.tree.withheld) : (r.link parent child).Sound where
  latest id k hk := by
    obtain ⟨step, hstep, hsource, hdirect⟩ := h.latest id k hk
    obtain ⟨step', hstep', hcontinues, hsame⟩ := exists_step_link parent child hstep
    exact ⟨step', hstep', hcontinues.source.trans hsource, hsame.trans hdirect⟩
  creates id k hk := by
    rw [size_link]
    exact h.creates id k hk
  sends id k hk := by
    rw [size_link]
    exact h.sends id k hk
  withheld k hk := by
    obtain ⟨step, hstep, hcreated⟩ := h.withheld k hk
    -- a withheld send gets no link
    have hne : parent ≠ k := fun heq => hnot (heq ▸ hk)
    exact ⟨step, by rw [getElem?_link, hstep]; simp [hne], hcreated⟩

theorem Grows.link (h : r.Grows kind source target r') {parent : Nat} (child : Nat)
    (hnot : parent ∉ r'.tree.withheld) : r.Grows kind source target (r'.link parent child) where
  sound := h.sound.link child hnot
  tree := by
    refine h.tree.trans ⟨Nat.le_of_eq (size_link r' parent child).symm, fun k step hstep => ?_,
      fun k _ => rfl⟩
    obtain ⟨step', hstep', hcontinues, -⟩ := exists_step_link parent child hstep
    exact ⟨step', hstep', hcontinues⟩
  size := (size_link r' parent child).trans h.size
  latest := h.latest
  step := by
    obtain ⟨step, hstep, hindex, hkind, hsource, htarget⟩ := h.step
    obtain ⟨step', hstep', hcontinues, -⟩ := exists_step_link parent child hstep
    exact ⟨step', hstep', hcontinues.index.trans hindex, hcontinues.kind.trans hkind,
      hcontinues.source.trans hsource, hcontinues.target.trans htarget⟩
  linked k hk := by
    obtain ⟨step, hstep, hdirect⟩ := h.linked k hk
    obtain ⟨step', hstep', -, hsame⟩ := exists_step_link parent child hstep
    exact ⟨step', hstep', hsame.trans hdirect⟩

theorem Grows.pending (h : r.Grows kind source target r')
    {creates : List (OperationId × Nat)} {sends : List (MessageId × Nat)}
    (hcreates : ∀ id k, creates.lookup id = some k →
      k < r'.tree.size ∧ k ∉ r'.tree.withheld)
    (hsends : ∀ id k, sends.lookup id = some k → k < r'.tree.size ∧ k ∉ r'.tree.withheld) :
    r.Grows kind source target { r' with pendingCreates := creates, pendingSends := sends } :=
  ⟨⟨h.sound.latest, hcreates, hsends, h.sound.withheld⟩, h.tree, h.size, h.latest, h.step,
    h.linked⟩

/-- An entry of a table that has been set is the new one or an old one. -/
theorem lookup_assoc_cases {κ : Type} [BEq κ] [LawfulBEq κ] {key x : κ} {value k : Nat}
    {table : List (κ × Nat)} (h : (assoc key value table).lookup x = some k) :
    k = value ∨ table.lookup x = some k := by
  rw [lookup_assoc] at h
  split at h
  · exact Or.inl (Option.some.inj h).symm
  · exact Or.inr h

theorem lookup_of_dissoc {κ : Type} [BEq κ] [LawfulBEq κ] {key x : κ} {k : Nat}
    {table : List (κ × Nat)} (h : (dissoc key table).lookup x = some k) :
    table.lookup x = some k := by
  rw [lookup_dissoc] at h
  split at h
  · cases h
  · exact h

/-- The step that has just been appended is not withheld yet. -/
theorem Sound.size_notMem (h : r.Sound) : r.tree.size ∉ r.tree.withheld :=
  fun hmem => Nat.lt_irrefl _ (h.withheld_lt hmem)

theorem Sound.recordCreate (h : r.Sound) (creator created : OperationId) :
    r.Grows .create creator created (r.recordCreate creator created).2 := by
  have happend := h.append .create creator created none
  refine happend.pending (fun id k hk => ?_) happend.sound.sends
  -- the new entry is the step that has just been appended
  rcases lookup_assoc_cases hk with rfl | hold
  · exact ⟨by rw [happend.size]; exact Nat.lt_succ_self _, h.size_notMem⟩
  · exact happend.sound.creates id k hold

/-- A start is linked from the creation of the operation, if this is still pending. -/
theorem recordStart_cases (r : Recorder) {id : OperationId} (hid : id ≠ .harness)
    (initial : Option Event) :
    (∃ create, r.pendingCreates.lookup id = some create ∧
        (r.recordStart id initial).2 =
          { (r.append .start id id initial).2.link create r.tree.size with
            pendingCreates := dissoc id r.pendingCreates }) ∨
      r.pendingCreates.lookup id = none ∧
        (r.recordStart id initial).2 = (r.append .start id id initial).2 := by
  have hpending : (r.append .start id id initial).2.pendingCreates = r.pendingCreates := rfl
  unfold Recorder.recordStart
  rw [if_neg hid]
  dsimp only
  rw [hpending]
  cases hcreate : r.pendingCreates.lookup id with
  | some create => exact Or.inl ⟨create, rfl, rfl⟩
  | none => exact Or.inr ⟨rfl, rfl⟩

/-- A receive is linked from the send of the message, if this is still pending. -/
theorem recordReceive_cases (r : Recorder) (receiver : OperationId) (event : Event) :
    (∃ message send, event.message = some message ∧ r.pendingSends.lookup message = some send ∧
        (r.recordReceive receiver event).2 =
          { (r.append .receive receiver receiver (some event)).2.link send r.tree.size with
            pendingSends := dissoc message r.pendingSends }) ∨
      (∀ message, event.message = some message → r.pendingSends.lookup message = none) ∧
        (r.recordReceive receiver event).2 =
          (r.append .receive receiver receiver (some event)).2 := by
  have hpending : (r.append .receive receiver receiver (some event)).2.pendingSends =
      r.pendingSends := rfl
  unfold Recorder.recordReceive
  dsimp only
  rw [hpending]
  cases hmessage : event.message with
  | none => exact Or.inr ⟨nofun, rfl⟩
  | some message =>
      rw [Option.bind_some]
      cases hsend : r.pendingSends.lookup message with
      | some send => exact Or.inl ⟨message, send, rfl, hsend, rfl⟩
      | none =>
          refine Or.inr ⟨fun other heq => ?_, rfl⟩
          cases heq
          exact hsend

theorem Sound.recordStart (h : r.Sound) {id : OperationId} (hid : id ≠ .harness)
    (initial : Option Event) : r.Grows .start id id (r.recordStart id initial).2 := by
  have happend := h.append .start id id initial
  rcases r.recordStart_cases hid initial with ⟨create, hcreate, heq⟩ | ⟨-, heq⟩ <;> rw [heq]
  · have hlink := happend.link r.tree.size (happend.sound.creates id create hcreate).2
    refine hlink.pending (fun x k hk => ?_) hlink.sound.sends
    exact hlink.sound.creates x k (lookup_of_dissoc hk)
  · exact happend

theorem Sound.recordReceive (h : r.Sound) (receiver : OperationId) (event : Event) :
    r.Grows .receive receiver receiver (r.recordReceive receiver event).2 := by
  have happend := h.append .receive receiver receiver (some event)
  rcases r.recordReceive_cases receiver event with
    ⟨message, send, -, hsend, heq⟩ | ⟨-, heq⟩ <;> rw [heq]
  · have hlink := happend.link r.tree.size (happend.sound.sends message send hsend).2
    refine hlink.pending hlink.sound.creates fun x k hk => ?_
    exact hlink.sound.sends x k (lookup_of_dissoc hk)
  · exact happend

/-- The pending sends once a send has been recorded. -/
def sendsAfter (r : Recorder) (event : Event) : List (MessageId × Nat) :=
  match event.message with
  | some id => assoc id r.tree.size r.pendingSends
  | none => r.pendingSends

theorem recordSend_eq (r : Recorder) (sender target : OperationId) (event : Event) :
    r.recordSend sender target event =
      (r.tree.size,
        { (r.append .send sender target (some event)).2 with
          pendingSends := r.sendsAfter event }) := by
  unfold recordSend sendsAfter
  cases event.message <;> rfl

theorem recordDelivery_deliver (r : Recorder) (sender target : OperationId) (event : Event) :
    r.recordDelivery sender target event .deliver =
      { (r.append .send sender target (some event)).2 with
        pendingSends := r.sendsAfter event } := by
  rw [recordDelivery, recordSend_eq]

/-- A send that is withheld is not pending. -/
theorem recordDelivery_withhold (r : Recorder) (sender target : OperationId) (event : Event) :
    ∃ sends : List (MessageId × Nat),
      (∀ id k, sends.lookup id = some k → r.pendingSends.lookup id = some k) ∧
      r.recordDelivery sender target event .withhold =
        { (r.append .send sender target (some event)).2 with
          pendingSends := sends
          tree := (r.append .send sender target (some event)).2.tree.withhold r.tree.size } := by
  let sends : List (MessageId × Nat) := match event.message with
    | some id => dissoc id (r.sendsAfter event)
    | none => r.sendsAfter event
  have hstep : (r.append .send sender target (some event)).2.tree.steps[r.tree.size]? =
      some (r.newStep .send sender target (some event)) := by
    rw [getElem?_append, if_pos rfl]
  refine ⟨sends, fun id k hk => ?_, ?_⟩
  · simp only [sends, sendsAfter] at hk
    cases hmessage : event.message with
    | none =>
        simp only [hmessage] at hk
        exact hk
    | some message =>
        -- the entry that has been made for this send is taken back
        simp only [hmessage] at hk
        rw [lookup_dissoc] at hk
        split at hk
        · cases hk
        · rename_i hne
          rw [lookup_assoc, if_neg hne] at hk
          exact hk
  · unfold recordDelivery
    rw [recordSend_eq]
    simp only [markWithheld, hstep]
    rfl

/-- A send that is delivered is pending. -/
theorem Sound.recordDeliver (h : r.Sound) (sender target : OperationId) (event : Event) :
    r.Grows .send sender target (r.recordDelivery sender target event .deliver) := by
  have happend := h.append .send sender target (some event)
  rw [recordDelivery_deliver]
  refine happend.pending happend.sound.creates fun id k hk => ?_
  have hcases : k = r.tree.size ∨ r.pendingSends.lookup id = some k := by
    unfold sendsAfter at hk
    split at hk
    · exact lookup_assoc_cases hk
    · exact Or.inr hk
  rcases hcases with rfl | hold
  · exact ⟨by rw [happend.size]; exact Nat.lt_succ_self _, h.size_notMem⟩
  · exact happend.sound.sends id k hold

/-- A mark on the step that has just been appended leaves the other marks and the tables alone. -/
theorem Sound.recordWithhold (h : r.Sound) (sender target : OperationId) (event : Event) :
    r.Grows .send sender target (r.recordDelivery sender target event .withhold) := by
  have happend := h.append .send sender target (some event)
  obtain ⟨sends, hsends, hdelivery⟩ := recordDelivery_withhold r sender target event
  rw [hdelivery]
  -- what is still pending is older than this send
  have holder : ∀ {k}, k < r.tree.size → k ∉ r.tree.withheld →
      k ∉ insertAscending r.tree.size r.tree.withheld := by
    intro k hk hnot hmem
    rcases mem_insertAscending.mp hmem with heq | hold
    · omega
    · exact hnot hold
  -- tables and marks of the recorder, then the old marks of the tree
  refine ⟨⟨happend.sound.latest, fun id k hk => ?_, fun id k hk => ?_, fun k hk => ?_⟩,
    ⟨happend.tree.size, happend.tree.steps, fun k hk => ?_⟩, happend.size, happend.latest,
    happend.step, happend.linked⟩
  · obtain ⟨hlt, hnot⟩ := h.creates id k hk
    exact ⟨Nat.lt_of_lt_of_le hlt happend.tree.size, holder hlt hnot⟩
  · obtain ⟨hlt, hnot⟩ := h.sends id k (hsends id k hk)
    exact ⟨Nat.lt_of_lt_of_le hlt happend.tree.size, holder hlt hnot⟩
  · rcases mem_insertAscending.mp hk with rfl | hold
    · exact ⟨_, (getElem?_append ..).trans (if_pos rfl), rfl⟩
    · exact happend.sound.withheld k hold
  · show (insertAscending r.tree.size r.tree.withheld).contains k = r.tree.withheld.contains k
    rw [Bool.eq_iff_iff]
    simp only [List.contains_iff_mem, mem_insertAscending]
    constructor
    · rintro (heq | hold)
      · omega
      · exact hold
    · exact Or.inr

/-- A send is recorded, and marked if it is withheld. -/
theorem Sound.recordDelivery (h : r.Sound) (sender target : OperationId) (event : Event)
    (delivery : Delivery) :
    r.Grows .send sender target (r.recordDelivery sender target event delivery) ∧
      (r.recordDelivery sender target event delivery).tree.isWithheld r.tree.size =
        decide (delivery = .withhold) := by
  cases delivery with
  | deliver =>
      refine ⟨h.recordDeliver sender target event, ?_⟩
      rw [recordDelivery_deliver]
      show r.tree.withheld.contains r.tree.size = false
      simpa using h.size_notMem
  | withhold =>
      refine ⟨h.recordWithhold sender target event, ?_⟩
      obtain ⟨sends, -, hdelivery⟩ := recordDelivery_withhold r sender target event
      rw [hdelivery]
      show (insertAscending r.tree.size r.tree.withheld).contains r.tree.size = true
      rw [List.contains_iff_mem]
      exact mem_insertAscending.mpr (Or.inl rfl)

/-! ## Dialogues -/

/-- An exchange appends its deed. -/
theorem Sound.grows_hear (h : r.Sound) {e : Exchange}
    (hdeed : e.deed? = some (kind, source, target)) : r.Grows kind source target (r.hear e) := by
  cases e with
  | notice n =>
      cases n with
      | created creator created =>
          cases hdeed
          exact h.recordCreate _ _
      | started id initial =>
          simp only [Exchange.deed?] at hdeed
          split at hdeed
          · cases hdeed
          · rename_i hid
            cases hdeed
            exact h.recordStart hid _
      | received receiver event =>
          cases hdeed
          exact h.recordReceive _ _
      | chosen id choice =>
          cases hdeed
          exact h.append _ _ _ none
      | monitored monitor sender hot => cases hdeed
  | send sender target event delivery =>
      cases hdeed
      exact (h.recordDelivery _ _ _ _).1
  | _ => cases hdeed

/-- An exchange that makes no step changes nothing about the tree. -/
theorem hear_of_deed?_eq_none {e : Exchange} (hdeed : e.deed? = none) (r : Recorder) :
    (r.hear e).tree = r.tree ∧ (r.hear e).latest = r.latest ∧
      (r.hear e).pendingCreates = r.pendingCreates ∧
        (r.hear e).pendingSends = r.pendingSends := by
  cases e with
  | notice n =>
      cases n with
      | started id initial =>
          simp only [Exchange.deed?] at hdeed
          split at hdeed
          · rename_i hid
            simp [hear, record, recordStart, hid]
          · cases hdeed
      | monitored monitor sender hot =>
          simp only [hear, record, recordMonitor]
          split
          · split <;> exact ⟨rfl, rfl, rfl, rfl⟩
          · exact ⟨rfl, rfl, rfl, rfl⟩
      | _ => cases hdeed
  | send sender target event delivery => cases hdeed
  | _ => exact ⟨rfl, rfl, rfl, rfl⟩

theorem Sound.hear (h : r.Sound) (e : Exchange) :
    (r.hear e).Sound ∧ r.tree.Extends (r.hear e).tree := by
  cases hdeed : e.deed? with
  | none =>
      obtain ⟨htree, hlatest, hcreates, hsends⟩ := hear_of_deed?_eq_none hdeed r
      refine ⟨⟨?_, ?_, ?_, ?_⟩, ?_⟩
      · unfold latestOf
        rw [htree, hlatest]
        exact h.latest
      · rw [htree, hcreates]
        exact h.creates
      · rw [htree, hsends]
        exact h.sends
      · rw [htree]
        exact h.withheld
      · rw [htree]
        exact .refl _
  | some deed =>
      obtain ⟨kind, source, target⟩ := deed
      have hgrows := h.grows_hear hdeed
      exact ⟨hgrows.sound, hgrows.tree⟩

/-- A tree only grows. -/
theorem Sound.hearAll (h : r.Sound) (l : List Exchange) :
    (r.hearAll l).Sound ∧ r.tree.Extends (r.hearAll l).tree := by
  induction l generalizing r with
  | nil => exact ⟨h, .refl _⟩
  | cons e l ih =>
      obtain ⟨hsound, hextends⟩ := h.hear e
      obtain ⟨hsound', hextends'⟩ := ih hsound
      exact ⟨hsound', hextends.trans hextends'⟩

/-- The result of a run changes neither steps nor marks. -/
theorem same_recordEnd (r : Recorder) (bug : Option BugKind) :
    (r.recordEnd bug).tree.steps = r.tree.steps ∧
      (r.recordEnd bug).tree.withheld = r.tree.withheld := by
  rcases bug with _ | bug
  · exact ⟨rfl, rfl⟩
  · cases bug <;> exact ⟨rfl, rfl⟩

end Recorder

end Interleave
