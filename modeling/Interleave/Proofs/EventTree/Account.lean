import Interleave.Proofs.EventTree.Growth
import Interleave.Proofs.EventTree.Links

/-!
# The account that a recorder keeps

The tree of a recorder has two kinds of links: each step leads to the next one of its operation
(`Linkage.succession`), and a creation or a send to the start or the receive that it has brought
about (`Linkage.causation`). A call that adds a step changes the tables of a recorder and the links
of its tree as one more happening does (`Recorder.Adds`), and to take a message out of the table of
sends is to cut it off. So tables and links are always those of the history (`Recorder.Accounts`),
as each of the recorder's functions keeps them.
-/

namespace Interleave

/-- What a step says about what happened. -/
def Step.happening (s : Step) : Happening :=
  ⟨s.kind, s.source, s.target, s.event⟩

/-- The message that the step sent or received. -/
def Step.message? (s : Step) : Option MessageId :=
  s.happening.message?

namespace EventTree

/-- What happened, in order. -/
def happenings (t : EventTree) : List Happening :=
  t.steps.toList.map Step.happening

/-- The link of a step to the next one of its operation. -/
def directChild? (t : EventTree) (k : Nat) : Option Nat :=
  t.steps[k]?.bind (·.directChild)

/-- The link of a step to the one that it brought about. -/
def createdChild? (t : EventTree) (k : Nat) : Option Nat :=
  t.steps[k]?.bind (·.createdChild)

theorem getElem?_happenings (t : EventTree) (k : Nat) :
    t.happenings[k]? = t.steps[k]?.map Step.happening := by
  simp [happenings]

theorem length_happenings (t : EventTree) : t.happenings.length = t.size := by
  simp [happenings, size]

theorem getElem?_happenings_of_step {t : EventTree} {k : Nat} {step : Step}
    (h : t.steps[k]? = some step) : t.happenings[k]? = some step.happening := by
  rw [getElem?_happenings, h]
  rfl

theorem directChild?_of_step {t : EventTree} {k : Nat} {step : Step}
    (h : t.steps[k]? = some step) : t.directChild? k = step.directChild := by
  rw [directChild?, h]
  rfl

theorem createdChild?_of_step {t : EventTree} {k : Nat} {step : Step}
    (h : t.steps[k]? = some step) : t.createdChild? k = step.createdChild := by
  rw [createdChild?, h]
  rfl

theorem exists_step_of_happening {t : EventTree} {k : Nat} {a : Happening}
    (h : t.happenings[k]? = some a) : ∃ step, t.steps[k]? = some step ∧ step.happening = a := by
  rw [getElem?_happenings] at h
  exact Option.map_eq_some_iff.mp h

end EventTree

/-- What happens at a notice. The start of the harness is there before the run, and monitors add no
step. -/
def Notice.happening? : Notice → Option Happening
  | .created creator child => some ⟨.create, creator, child, none⟩
  | .started id initial => if id = .harness then none else some ⟨.start, id, id, initial⟩
  | .received receiver event => some ⟨.receive, receiver, receiver, some event⟩
  | .chosen id choice => some ⟨.ofChoice choice, id, id, none⟩
  | .monitored _ _ _ => none

/-- What brings a step about: the creation of an operation its start, and the delivery of a message
its receive. -/
inductive Cause where
  | creation (created : OperationId)
  | delivery (message : MessageId)
  deriving DecidableEq

namespace Happening

/-- What the happening is to bring about. -/
def brings? (a : Happening) : Option Cause :=
  match a.kind with
  | .create => some (.creation a.target)
  | .send => a.message?.map .delivery
  | _ => none

/-- What brought the happening about. -/
def cause? (a : Happening) : Option Cause :=
  match a.kind with
  | .start => some (.creation a.source)
  | .receive => a.message?.map .delivery
  | _ => none

theorem brings?_eq_creation_iff {a : Happening} {created : OperationId} :
    a.brings? = some (.creation created) ↔ a.kind = .create ∧ a.target = created := by
  unfold brings?
  cases a.kind <;> simp

theorem brings?_eq_delivery_iff {a : Happening} {m : MessageId} :
    a.brings? = some (.delivery m) ↔ a.kind = .send ∧ a.message? = some m := by
  unfold brings?
  cases a.kind <;> simp

theorem cause?_eq_creation_iff {a : Happening} {created : OperationId} :
    a.cause? = some (.creation created) ↔ a.kind = .start ∧ a.source = created := by
  unfold cause?
  cases a.kind <;> simp

theorem cause?_eq_delivery_iff {a : Happening} {m : MessageId} :
    a.cause? = some (.delivery m) ↔ a.kind = .receive ∧ a.message? = some m := by
  unfold cause?
  cases a.kind <;> simp

end Happening

namespace Linkage

/-- Each happening is followed by the next one of its operation. -/
def succession : Linkage OperationId where
  opens a := some a.source
  closes a := some a.source

/-- Creations bring starts about, and sends receives. -/
def causation : Linkage Cause where
  opens := Happening.brings?
  closes := Happening.cause?

end Linkage

namespace Recorder

/-- The step that waits for what it has brought about. -/
def pending (r : Recorder) : Cause → Option Nat
  | .creation created => r.pendingCreates.lookup created
  | .delivery message => r.pendingSends.lookup message

/-- One recording is another one with one more happening. -/
structure Adds (r : Recorder) (a : Happening) (r' : Recorder) : Prop where
  happenings : r'.tree.happenings = r.tree.happenings ++ [a]
  indices : r'.tree.steps.toList.map Step.index =
    r.tree.steps.toList.map Step.index ++ [r.tree.size]
  latest : ∀ x, r'.latestOf x = if x = a.source then some r.tree.size else r.latestOf x
  direct : ∀ k, r'.tree.directChild? k =
    if r.latestOf a.source = some k then some r.tree.size else r.tree.directChild? k
  pending : ∀ x, r'.pending x =
    if some x = a.brings? then some r.tree.size
    else if some x = a.cause? then none
    else r.pending x
  created : ∀ k, r'.tree.createdChild? k =
    if a.cause?.bind r.pending = some k then some r.tree.size
    else r.tree.createdChild? k
  withheld : r'.tree.withheld = r.tree.withheld
  bugStep : r'.tree.bugStep = r.tree.bugStep
  hotMonitors : r'.hotMonitors = r.hotMonitors

/-- The tables of a recording and the links of its tree are those of the history. The relation `cut`
tells when messages were marked as withheld. -/
structure Accounts (r : Recorder) (cut : Cause → Nat → Prop) : Prop where
  root : r.tree.happenings[0]? = some EventTree.rootStep.happening
  indices : r.tree.steps.toList.map Step.index = List.range r.tree.size
  succession : Linkage.succession.Tracks r.tree.happenings (fun _ _ => False) r.latestOf
    r.tree.directChild?
  causation : Linkage.causation.Tracks r.tree.happenings cut r.pending r.tree.createdChild?
  withheld : ∀ k ∈ r.tree.withheld, ∃ step, r.tree.steps[k]? = some step ∧ step.kind = .send
  bugStep : ∀ k, r.tree.bugStep = some k → k < r.tree.size
  hot : ∀ monitor k, r.hotMonitors.lookup monitor = some k → k < r.tree.size

theorem Accounts.size_pos {r : Recorder} {cut : Cause → Nat → Prop} (h : r.Accounts cut) :
    0 < r.tree.size := by
  rw [← r.tree.length_happenings]
  exact Nat.zero_lt_of_lt (List.getElem?_eq_some_iff.mp h.root).1

theorem Accounts.latest_lt {r : Recorder} {cut : Cause → Nat → Prop} (h : r.Accounts cut)
    {x : OperationId} {k : Nat} (hk : r.latestOf x = some k) : k < r.tree.size := by
  rw [← r.tree.length_happenings]
  exact ((h.succession.table x k).mp hk).lt_length

theorem Accounts.pending_lt {r : Recorder} {cut : Cause → Nat → Prop} (h : r.Accounts cut)
    {x : Cause} {k : Nat} (hk : r.pending x = some k) : k < r.tree.size := by
  rw [← r.tree.length_happenings]
  exact ((h.causation.table x k).mp hk).lt_length

theorem accounts_empty : empty.Accounts fun _ _ => False where
  root := rfl
  indices := rfl
  succession := by
    refine Linkage.succession.tracks_singleton (a := EventTree.rootStep.happening)
      (fun x => ?_) fun k => ?_
    · have hlookup : empty.latestOf x = if x = .harness then some 0 else none := by
        by_cases hx : x = .harness
        · rw [hx]
          rfl
        · have hne : (x == OperationId.harness) = false := by simpa using hx
          simp [latestOf, empty, List.lookup_cons, hne, hx]
      rw [hlookup]
      simp [Linkage.succession, Step.happening, EventTree.rootStep]
    · cases k <;> rfl
  causation := by
    refine Linkage.causation.tracks_singleton (a := EventTree.rootStep.happening)
      (fun x => ?_) fun k => ?_
    · cases x <;> rfl
    · cases k <;> rfl
  withheld k hk := by cases hk
  bugStep k hk := by cases hk
  hot monitor k hk := by cases hk

/-- Whatever adds a happening keeps the account. -/
theorem Accounts.add {r r' : Recorder} {cut : Cause → Nat → Prop} {a : Happening}
    (h : r.Accounts cut) (hadds : r.Adds a r') : r'.Accounts cut := by
  have hlength := r.tree.length_happenings
  have hsize : r'.tree.size = r.tree.size + 1 := by
    rw [← r'.tree.length_happenings, hadds.happenings, List.length_append, hlength]
    rfl
  refine ⟨?_, ?_, ?_, ?_, fun k hk => ?_, fun k hk => ?_, fun monitor k hk => ?_⟩
  · rw [hadds.happenings, List.getElem?_append_left (List.getElem?_eq_some_iff.mp h.root).1]
    exact h.root
  · rw [hadds.indices, h.indices, hsize, List.range_succ]
  · rw [hadds.happenings]
    refine h.succession.concat a (fun x => ?_) fun k => ?_
    · rw [hadds.latest, hlength]
      by_cases hx : x = a.source
      · simp [Linkage.succession, hx]
      · simp [Linkage.succession, hx]
    · rw [hadds.direct, hlength]
      rfl
  · rw [hadds.happenings]
    refine h.causation.concat a (fun x => ?_) fun k => ?_
    · rw [hadds.pending, hlength]
      rfl
    · rw [hadds.created, hlength]
      rfl
  · rw [hadds.withheld] at hk
    obtain ⟨step, hstep, hkind⟩ := h.withheld k hk
    have hold := EventTree.getElem?_happenings_of_step hstep
    have hnew : r'.tree.happenings[k]? = some step.happening := by
      rw [hadds.happenings, List.getElem?_append_left (List.getElem?_eq_some_iff.mp hold).1]
      exact hold
    obtain ⟨step', hstep', heq⟩ := EventTree.exists_step_of_happening hnew
    exact ⟨step', hstep', (congrArg Happening.kind heq).trans hkind⟩
  · rw [hadds.bugStep] at hk
    rw [hsize]
    exact Nat.lt_succ_of_lt (h.bugStep k hk)
  · rw [hadds.hotMonitors] at hk
    rw [hsize]
    exact Nat.lt_succ_of_lt (h.hot monitor k hk)

/-! ## Notices without a step -/

theorem record_of_started {r : Recorder} {id : OperationId} {initial : Option Event}
    (h : (Notice.started id initial).happening? = none) : r.record (.started id initial) = r := by
  simp only [Notice.happening?] at h
  split at h
  · rename_i hid
    simp [record, recordStart, hid]
  · cases h

/-- A notice at which nothing happens leaves the tree as it is. -/
theorem tree_record_of_none {r : Recorder} {n : Notice} (hn : n.happening? = none) :
    (r.record n).tree = r.tree := by
  cases n with
  | monitored monitor sender hot =>
      simp only [record, recordMonitor]
      split
      · split <;> rfl
      · rfl
  | started id initial => rw [record_of_started hn]
  | _ => cases hn

/-! ## Steps that are added -/

section Append

variable (r : Recorder) (kind : StepKind) (source target : OperationId) (event : Option Event)

/-- What does not depend on links to next steps is read off a tree with one more step. -/
theorem map_steps_append {α : Type} {f : Step → α}
    (hf : ∀ (step : Step) child, f { step with directChild := child } = f step) :
    (r.append kind source target event).2.tree.steps.toList.map f =
      r.tree.steps.toList.map f ++ [f (r.newStep kind source target event)] := by
  have hlength : (r.tree.steps.toList.map f).length = r.tree.size := by simp [EventTree.size]
  refine List.ext_getElem? fun k => ?_
  rw [List.getElem?_map, Array.getElem?_toList, getElem?_append]
  by_cases hk : k = r.tree.size
  · rw [if_pos hk, hk, ← hlength, List.getElem?_concat_length]
    rfl
  · rw [if_neg hk, Option.map_map]
    rcases Nat.lt_or_gt_of_ne hk with hlt | hgt
    · rw [List.getElem?_append_left (by rwa [hlength]), List.getElem?_map, Array.getElem?_toList]
      refine Option.map_congr fun step _ => ?_
      simp only [Function.comp_apply]
      split
      · exact hf step _
      · rfl
    · have hout : r.tree.steps[k]? = none := Array.getElem?_eq_none (Nat.le_of_lt hgt)
      rw [hout, List.getElem?_eq_none]
      · rfl
      · rw [List.length_append, hlength]
        exact hgt

theorem directChild?_append {k : Nat}
    (hlatest : ∀ i, r.latestOf source = some i → i < r.tree.size) :
    (r.append kind source target event).2.tree.directChild? k =
      if r.latestOf source = some k then some r.tree.size else r.tree.directChild? k := by
  unfold EventTree.directChild?
  rw [getElem?_append]
  by_cases hk : k = r.tree.size
  · have hnot : r.latestOf source ≠ some k := fun h => absurd (hlatest k h) (by omega)
    have hout : r.tree.steps[k]? = none := Array.getElem?_eq_none (Nat.le_of_eq hk.symm)
    rw [if_pos hk, if_neg hnot, hout]
    rfl
  · rw [if_neg hk]
    by_cases hlink : r.latestOf source = some k
    · obtain ⟨step, hstep⟩ : ∃ step, r.tree.steps[k]? = some step :=
        ⟨_, Array.getElem?_eq_getElem (hlatest k hlink)⟩
      simp [hlink, hstep]
    · simp [hlink]

theorem createdChild?_append (k : Nat) :
    (r.append kind source target event).2.tree.createdChild? k = r.tree.createdChild? k := by
  unfold EventTree.createdChild?
  rw [getElem?_append]
  by_cases hk : k = r.tree.size
  · have hout : r.tree.steps[k]? = none := Array.getElem?_eq_none (Nat.le_of_eq hk.symm)
    rw [if_pos hk, hout]
    rfl
  · rw [if_neg hk, Option.bind_map]
    refine Option.bind_congr fun step _ => ?_
    simp only [Function.comp_apply]
    split <;> rfl

end Append

section Link

variable (r : Recorder) (parent child : Nat)

theorem map_steps_link {α : Type} {f : Step → α}
    (hf : ∀ (step : Step) child, f { step with createdChild := child } = f step) :
    (r.link parent child).tree.steps.toList.map f = r.tree.steps.toList.map f := by
  refine List.ext_getElem? fun k => ?_
  rw [List.getElem?_map, List.getElem?_map, Array.getElem?_toList, Array.getElem?_toList,
    getElem?_link, Option.map_map]
  refine Option.map_congr fun step _ => ?_
  simp only [Function.comp_apply]
  split
  · exact hf step _
  · rfl

theorem directChild?_link (k : Nat) :
    (r.link parent child).tree.directChild? k = r.tree.directChild? k := by
  unfold EventTree.directChild?
  rw [getElem?_link, Option.bind_map]
  refine Option.bind_congr fun step _ => ?_
  simp only [Function.comp_apply]
  split <;> rfl

variable {parent} in
theorem createdChild?_link (hparent : parent < r.tree.size) (k : Nat) :
    (r.link parent child).tree.createdChild? k =
      if parent = k then some child else r.tree.createdChild? k := by
  unfold EventTree.createdChild?
  rw [getElem?_link, Option.bind_map]
  by_cases hk : parent = k
  · obtain ⟨step, hstep⟩ : ∃ step, r.tree.steps[k]? = some step :=
      ⟨_, Array.getElem?_eq_getElem (hk ▸ hparent)⟩
    simp [hk, hstep]
  · simp only [if_neg hk]
    rfl

end Link

section Calls

variable {r : Recorder} {cut : Cause → Nat → Prop} (h : r.Accounts cut)

include h

/-- A step is appended, and the step that waited for it, if there is one, is linked to it. Then the
tables of what waits are brought up to date. -/
theorem Accounts.adds_append (a : Happening) {base : Recorder}
    (hbase : (a.cause?.bind r.pending = none ∧
        base = (r.append a.kind a.source a.target a.event).2) ∨
      ∃ parent, a.cause?.bind r.pending = some parent ∧
        base = (r.append a.kind a.source a.target a.event).2.link parent r.tree.size)
    {creates : List (OperationId × Nat)} {sends : List (MessageId × Nat)}
    (hcreates : ∀ x, creates.lookup x =
      if some (.creation x) = a.brings? then some r.tree.size
      else if some (.creation x) = a.cause? then none
      else r.pendingCreates.lookup x)
    (hsends : ∀ x, sends.lookup x =
      if some (.delivery x) = a.brings? then some r.tree.size
      else if some (.delivery x) = a.cause? then none
      else r.pendingSends.lookup x) :
    r.Adds a { base with pendingCreates := creates, pendingSends := sends } := by
  have hpending : ∀ x, Recorder.pending
      { base with pendingCreates := creates, pendingSends := sends } x =
        if some x = a.brings? then some r.tree.size
        else if some x = a.cause? then none
        else r.pending x := by
    intro x
    cases x with
    | creation created => exact hcreates created
    | delivery message => exact hsends message
  have hlatest : ∀ x, (r.append a.kind a.source a.target a.event).2.latestOf x =
      if x = a.source then some r.tree.size else r.latestOf x :=
    latestOf_append r _ _ _ _
  have hdirect := fun k => directChild?_append r a.kind a.source a.target a.event (k := k)
    fun _ => h.latest_lt
  rcases hbase with ⟨hclosed, rfl⟩ | ⟨parent, hclosed, rfl⟩
  · refine ⟨map_steps_append r _ _ _ _ fun _ _ => rfl, map_steps_append r _ _ _ _ fun _ _ => rfl,
      hlatest, hdirect, hpending, fun k => ?_, rfl, rfl, rfl⟩
    rw [hclosed]
    exact createdChild?_append r _ _ _ _ k
  · have hparent : parent < (r.append a.kind a.source a.target a.event).2.tree.size := by
      obtain ⟨x, -, hx⟩ := Option.bind_eq_some_iff.mp hclosed
      rw [size_append]
      exact Nat.lt_succ_of_lt (h.pending_lt hx)
    refine ⟨(map_steps_link _ _ _ fun _ _ => rfl).trans
        (map_steps_append r _ _ _ _ fun _ _ => rfl),
      (map_steps_link _ _ _ fun _ _ => rfl).trans
        (map_steps_append r _ _ _ _ fun _ _ => rfl), hlatest,
      fun k => (directChild?_link _ _ _ k).trans (hdirect k), hpending, fun k => ?_, rfl, rfl, rfl⟩
    refine (createdChild?_link _ r.tree.size hparent k).trans ?_
    rw [createdChild?_append, hclosed]
    simp only [Option.some.injEq]

theorem Accounts.adds_recordCreate (creator created : OperationId) :
    r.Adds ⟨.create, creator, created, none⟩ (r.recordCreate creator created).2 := by
  refine h.adds_append _ (Or.inl ⟨rfl, rfl⟩) (fun x => ?_) fun x => rfl
  rw [lookup_assoc]
  simp only [Happening.brings?, Happening.cause?, Option.some.injEq, Cause.creation.injEq,
    beq_iff_eq, reduceCtorEq, if_false]

theorem Accounts.adds_recordStart {id : OperationId} (hid : id ≠ .harness)
    (initial : Option Event) :
    r.Adds ⟨.start, id, id, initial⟩ (r.recordStart id initial).2 := by
  rcases r.recordStart_cases hid initial with ⟨create, hcreate, heq⟩ | ⟨hnone, heq⟩ <;> rw [heq]
  · refine h.adds_append ⟨.start, id, id, initial⟩ (Or.inr ⟨create, hcreate, rfl⟩) (fun x => ?_)
      fun x => rfl
    rw [lookup_dissoc]
    simp only [Happening.brings?, Happening.cause?, Option.some.injEq, Cause.creation.injEq,
      beq_iff_eq, reduceCtorEq, if_false]
  · refine h.adds_append ⟨.start, id, id, initial⟩ (Or.inl ⟨hnone, rfl⟩) (fun x => ?_) fun x => rfl
    simp only [Happening.brings?, Happening.cause?, Option.some.injEq, Cause.creation.injEq,
      reduceCtorEq, if_false]
    -- nothing waited for this start
    split
    · rename_i hx
      rw [hx]
      exact hnone
    · rfl

theorem Accounts.adds_recordSend (sender target : OperationId) (event : Event) :
    r.Adds ⟨.send, sender, target, some event⟩ (r.recordSend sender target event).2 := by
  have hbrings : (⟨.send, sender, target, some event⟩ : Happening).brings? =
      event.message.map .delivery := rfl
  rw [recordSend_eq]
  refine h.adds_append ⟨.send, sender, target, some event⟩ (Or.inl ⟨rfl, rfl⟩) (fun x => ?_)
    fun x => ?_
  · cases hmessage : event.message <;> simp [hbrings, hmessage, Happening.cause?, append]
  · unfold sendsAfter
    cases hmessage : event.message with
    | none => simp [hbrings, hmessage, Happening.cause?]
    | some m =>
        rw [lookup_assoc]
        simp [hbrings, hmessage, Happening.cause?]

theorem Accounts.adds_recordReceive (receiver : OperationId) (event : Event) :
    r.Adds ⟨.receive, receiver, receiver, some event⟩ (r.recordReceive receiver event).2 := by
  have hcause : (⟨.receive, receiver, receiver, some event⟩ : Happening).cause? =
      event.message.map .delivery := rfl
  have hbrings : (⟨.receive, receiver, receiver, some event⟩ : Happening).brings? = none := rfl
  rcases r.recordReceive_cases receiver event with
    ⟨m, send, hmessage, hsend, heq⟩ | ⟨hnone, heq⟩ <;> rw [heq]
  · refine h.adds_append ⟨.receive, receiver, receiver, some event⟩ (Or.inr ⟨send, ?_, rfl⟩)
      (fun x => ?_) fun x => ?_
    · rw [hcause, hmessage]
      exact hsend
    · simp [hcause, hbrings, hmessage, link, append]
    · rw [lookup_dissoc]
      simp only [hcause, hbrings, hmessage, Option.map_some, Option.some.injEq,
        Cause.delivery.injEq, beq_iff_eq, reduceCtorEq, if_false]
  · have hclosed : (event.message.map Cause.delivery).bind r.pending = none := by
      cases hmessage : event.message with
      | none => rfl
      | some m => exact hnone m hmessage
    refine h.adds_append ⟨.receive, receiver, receiver, some event⟩ (Or.inl ⟨hclosed, rfl⟩)
      (fun x => ?_) fun x => ?_
    · cases hmessage : event.message <;> simp [hcause, hbrings, hmessage]
    · simp only [hcause, hbrings, reduceCtorEq, if_false]
      -- nothing waited for this receive
      split
      · rename_i hx
        rw [← hx] at hclosed
        exact hclosed
      · rfl

theorem Accounts.adds_recordChoice (id : OperationId) (choice : Choice) :
    r.Adds ⟨.ofChoice choice, id, id, none⟩ (r.recordChoice id choice).2 := by
  cases choice <;> exact h.adds_append _ (Or.inl ⟨rfl, rfl⟩) (fun x => rfl) fun x => rfl

/-- A monitor adds no step. One that becomes hot does so at a step that exists. -/
theorem Accounts.recordMonitor (monitor : String) (sender : OperationId) (hot : Bool) :
    (r.recordMonitor monitor sender hot).Accounts cut := by
  unfold Recorder.recordMonitor
  split
  · split
    · exact h
    · refine ⟨h.root, h.indices, h.succession, h.causation, h.withheld, h.bugStep,
        fun name k hk => ?_⟩
      rcases lookup_assoc_cases hk with rfl | hold
      · cases hlatest : r.latestOf sender with
        | none => exact Nat.sub_lt h.size_pos Nat.zero_lt_one
        | some latest => exact h.latest_lt hlatest
      · exact h.hot name k hold
  · exact ⟨h.root, h.indices, h.succession, h.causation, h.withheld, h.bugStep,
      fun name k hk => h.hot name k (lookup_of_dissoc hk)⟩

/-- The result of a run lies at a step that exists. -/
theorem Accounts.recordEnd (bug : Option BugKind) : (r.recordEnd bug).Accounts cut := by
  have hlast : r.tree.lastIndex < r.tree.size := Nat.sub_lt h.size_pos Nat.zero_lt_one
  have hset : ∀ (step : Nat) (monitor : Option String), step < r.tree.size →
      Accounts { r with tree := { r.tree with livenessMonitor := monitor }.setBug (some step) }
        cut :=
    fun step monitor hstep => ⟨h.root, h.indices, h.succession, h.causation, h.withheld,
      fun k hk => (Option.some.inj hk) ▸ hstep, h.hot⟩
  rcases bug with _ | bug
  · exact h
  · cases bug with
    | liveness monitor =>
        refine hset _ (some monitor) ?_
        cases hhot : r.hotMonitors.lookup monitor with
        | none => exact hlast
        | some since => exact h.hot monitor since hhot
    | _ => exact hset _ r.tree.livenessMonitor hlast

theorem Accounts.congr {cut' : Cause → Nat → Prop} (hcut : ∀ x k, cut' x k ↔ cut x k) :
    r.Accounts cut' := by
  have heq : cut' = cut := funext fun x => funext fun k => propext (hcut x k)
  rw [heq]
  exact h

theorem Accounts.mark {send : Nat} {step : Step} (hstep : r.tree.steps[send]? = some step)
    (hkind : step.kind = .send) :
    Accounts { r with tree := r.tree.withhold send } cut := by
  refine ⟨h.root, h.indices, h.succession, h.causation, fun k hk => ?_, h.bugStep, h.hot⟩
  rcases mem_insertAscending.mp hk with rfl | hold
  · exact ⟨step, hstep, hkind⟩
  · exact h.withheld k hold

theorem Accounts.cutOff (m : MessageId) :
    Accounts { r with pendingSends := dissoc m r.pendingSends }
      fun x k => cut x k ∨ (x = .delivery m ∧ k = r.tree.size) := by
  have htable : ∀ x, pending { r with pendingSends := dissoc m r.pendingSends } x =
      if x = .delivery m then none else r.pending x := by
    intro x
    cases x with
    | creation created => rfl
    | delivery m' => simp only [pending, lookup_dissoc, beq_iff_eq, Cause.delivery.injEq]
  have hcut := h.causation.cutOff (.delivery m) htable
  rw [r.tree.length_happenings] at hcut
  exact ⟨h.root, h.indices, h.succession, hcut, h.withheld, h.bugStep, h.hot⟩

/-- A notice adds what it tells of. -/
theorem Accounts.adds_record {n : Notice} {a : Happening} (hn : n.happening? = some a) :
    r.Adds a (r.record n) := by
  cases n with
  | created creator created =>
      cases hn
      exact h.adds_recordCreate creator created
  | started id initial =>
      simp only [Notice.happening?] at hn
      split at hn
      · cases hn
      · rename_i hid
        cases hn
        exact h.adds_recordStart hid initial
  | received receiver event =>
      cases hn
      exact h.adds_recordReceive receiver event
  | chosen id choice =>
      cases hn
      exact h.adds_recordChoice id choice
  | monitored monitor sender hot => cases hn

theorem Accounts.record (n : Notice) : (r.record n).Accounts cut := by
  cases hn : n.happening? with
  | some a => exact h.add (h.adds_record hn)
  | none =>
      cases n with
      | monitored monitor sender hot => exact h.recordMonitor monitor sender hot
      | started id initial =>
          rw [record_of_started hn]
          exact h
      | _ => cases hn

end Calls

end Recorder

end Interleave
