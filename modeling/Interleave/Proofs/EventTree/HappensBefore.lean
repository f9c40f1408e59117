import Interleave.Proofs.EventTree.Account
import Mathlib.Data.List.Induction

/-!
# The tree is what happened before what

A recorder is fed with calls of all kinds, in any order and with any arguments (`Recorder.Call`).
Every call keeps the account of `Recorder.Accounts`, in which a mark on a send cuts its message off.
The links of the tree are read off the account (`Recorder.tree_is_happens_before`): a step is linked
to the next one of its operation, a creation to the next start of the created operation unless this
is created again before, and a send to the next receive of its message unless this is sent again or
withheld before.
-/

namespace Interleave

namespace EventTree

/-- The step is the send of a message. -/
def Sends (t : EventTree) (send : Nat) (m : MessageId) : Prop :=
  ∃ step, t.steps[send]? = some step ∧ step.kind = .send ∧ step.message? = some m

/-- The step at `j` is the first one after that at `i` of which `p` holds. -/
structure IsNext (t : EventTree) (p : Step → Prop) (i j : Nat) : Prop where
  later : i < j
  holds : ∃ step, t.steps[j]? = some step ∧ p step
  first : ∀ k step, i < k → k < j → t.steps[k]? = some step → ¬p step

/-- No step between those at `i` and `j` is one of which `p` holds. -/
def NoneBetween (t : EventTree) (p : Step → Prop) (i j : Nat) : Prop :=
  ∀ k step, i < k → k < j → t.steps[k]? = some step → ¬p step

end EventTree

namespace Recorder

/-! ## Sequences of calls -/

/-- A call that feeds a recorder. -/
inductive Call where
  | notice (n : Notice)
  | send (sender target : OperationId) (event : Event)
  | withhold (send : Nat)
  | finish (bug : Option BugKind)

/-- What happens at a call. -/
def Call.happening? : Call → Option Happening
  | .notice n => n.happening?
  | .send sender target event => some ⟨.send, sender, target, some event⟩
  | .withhold _ | .finish _ => none

/-- The recording after a call. -/
def after (r : Recorder) : Call → Recorder
  | .notice n => r.record n
  | .send sender target event => (r.recordSend sender target event).2
  | .withhold send => r.markWithheld send
  | .finish bug => r.recordEnd bug

/-- The recording after calls in a row. -/
def afterAll (r : Recorder) (calls : List Call) : Recorder :=
  calls.foldl after r

theorem afterAll_concat (r : Recorder) (calls : List Call) (c : Call) :
    r.afterAll (calls ++ [c]) = (r.afterAll calls).after c :=
  List.foldl_append

/-- In the course of the calls a send of the message was marked as withheld when the tree had `k`
steps. -/
def Withholds (calls : List Call) (m : MessageId) (k : Nat) : Prop :=
  ∃ before send after, calls = before ++ .withhold send :: after ∧
    (empty.afterAll before).tree.size = k ∧ (empty.afterAll before).tree.Sends send m

theorem withholds_concat {calls : List Call} {c : Call} {m : MessageId} {k : Nat} :
    Withholds (calls ++ [c]) m k ↔ Withholds calls m k ∨ ∃ send, c = .withhold send ∧
      (empty.afterAll calls).tree.size = k ∧ (empty.afterAll calls).tree.Sends send m := by
  constructor
  · rintro ⟨before, send, after, hcalls, hk, hsends⟩
    rcases after.eq_nil_or_concat with rfl | ⟨rest, last, rfl⟩
    · obtain ⟨rfl, hc⟩ := List.append_inj' hcalls rfl
      exact Or.inr ⟨send, (List.cons.inj hc).1, hk, hsends⟩
    · rw [List.concat_eq_append, ← List.cons_append, ← List.append_assoc] at hcalls
      obtain ⟨rfl, -⟩ := List.append_inj' hcalls rfl
      exact Or.inl ⟨before, send, rest, rfl, hk, hsends⟩
  · rintro (⟨before, send, after, rfl, hk, hsends⟩ | ⟨send, rfl, hk, hsends⟩)
    · exact ⟨before, send, after ++ [c], by simp, hk, hsends⟩
    · exact ⟨calls, send, [], rfl, hk, hsends⟩

section After

variable {r : Recorder} {cut : Cause → Nat → Prop} (h : r.Accounts cut)

include h

/-- A mark on a send cuts its message off, and a mark on another step does nothing. -/
theorem Accounts.markWithheld (send : Nat) :
    (r.markWithheld send).Accounts fun x k => cut x k ∨
      ∃ m, x = .delivery m ∧ k = r.tree.size ∧ r.tree.Sends send m := by
  unfold Recorder.markWithheld
  cases hstep : r.tree.steps[send]? with
  | none => exact h.congr fun x k => or_iff_left (by simp [EventTree.Sends, hstep])
  | some step =>
      dsimp only
      split
      · rename_i hkind
        cases hmessage : step.event.bind (·.message) with
        | none =>
            have hnone : step.message? = none := hmessage
            exact (h.mark hstep hkind).congr fun x k =>
              or_iff_left (by simp [EventTree.Sends, hstep, hnone])
        | some m =>
            have hsome : step.message? = some m := hmessage
            refine ((h.cutOff m).mark hstep hkind).congr fun x k => or_congr_right ?_
            simp [EventTree.Sends, hstep, hsome, hkind]
      · rename_i hkind
        exact h.congr fun x k => or_iff_left (by simp [EventTree.Sends, hstep, hkind])

/-- Every call keeps the account. -/
theorem Accounts.after (c : Call) :
    (r.after c).Accounts fun x k => cut x k ∨ ∃ send m, c = .withhold send ∧ x = .delivery m ∧
      k = r.tree.size ∧ r.tree.Sends send m := by
  have hother : (∀ send, c ≠ .withhold send) → ∀ x k, (cut x k ∨ ∃ send m, c = .withhold send ∧
      x = .delivery m ∧ k = r.tree.size ∧ r.tree.Sends send m) ↔ cut x k := by
    intro hc x k
    refine or_iff_left ?_
    rintro ⟨send, m, heq, -⟩
    exact hc send heq
  cases c with
  | notice n => exact (h.record n).congr (hother nofun)
  | send sender target event =>
      exact (h.add (h.adds_recordSend sender target event)).congr (hother nofun)
  | withhold send =>
      refine (h.markWithheld send).congr fun x k => or_congr_right ?_
      simp
  | finish bug => exact (h.recordEnd bug).congr (hother nofun)

/-- A call adds what happens at it to the tree, and nothing else. -/
theorem Accounts.happenings_after (c : Call) :
    (r.after c).tree.happenings = r.tree.happenings ++ c.happening?.toList := by
  cases c with
  | notice n =>
      cases hn : n.happening? with
      | some a =>
          rw [show Call.happening? (.notice n) = some a from hn]
          exact (h.adds_record hn).happenings
      | none =>
          rw [show Call.happening? (.notice n) = none from hn, Recorder.after,
            tree_record_of_none hn]
          simp
  | send sender target event => exact (h.adds_recordSend sender target event).happenings
  | withhold send =>
      have hsteps : (r.markWithheld send).tree.steps = r.tree.steps := by
        unfold Recorder.markWithheld
        split
        · split <;> rfl
        · rfl
      simp [Recorder.after, EventTree.happenings, hsteps, Call.happening?]
  | finish bug =>
      simp [Recorder.after, EventTree.happenings, (same_recordEnd r bug).1, Call.happening?]

end After

/-- Whatever calls are made, the tables of a recording and the links of its tree are those of the
history. -/
theorem accounts_afterAll (calls : List Call) :
    (empty.afterAll calls).Accounts fun x k => ∃ m, x = .delivery m ∧ Withholds calls m k := by
  induction calls using List.reverseRecOn with
  | nil =>
      refine accounts_empty.congr fun x k => iff_false_intro ?_
      rintro ⟨m, -, before, send, after, hcalls, -⟩
      simp at hcalls
  | append_singleton calls c ih =>
      rw [afterAll_concat]
      refine (ih.after c).congr fun x k => ?_
      simp only [withholds_concat]
      constructor
      · rintro ⟨m, rfl, hold | ⟨send, rfl, rfl, hsends⟩⟩
        · exact Or.inl ⟨m, rfl, hold⟩
        · exact Or.inr ⟨send, m, rfl, rfl, rfl, hsends⟩
      · rintro (⟨m, rfl, hold⟩ | ⟨send, m, rfl, rfl, rfl, hsends⟩)
        · exact ⟨m, rfl, Or.inl hold⟩
        · exact ⟨m, rfl, Or.inr ⟨send, rfl, rfl, hsends⟩⟩

/-- The steps of a tree are the root and what happened at the calls, in order. -/
theorem happenings_afterAll (calls : List Call) :
    (empty.afterAll calls).tree.happenings =
      EventTree.rootStep.happening :: calls.filterMap Call.happening? := by
  induction calls using List.reverseRecOn with
  | nil => rfl
  | append_singleton calls c ih =>
      rw [afterAll_concat, (accounts_afterAll calls).happenings_after, ih, List.filterMap_append,
        List.cons_append]
      cases hc : c.happening? <;> simp [hc]

/-! ## The links of a tree -/

section Links

variable {r : Recorder} {cut : Cause → Nat → Prop} (h : r.Accounts cut)

include h

theorem Accounts.index_eq {k : Nat} {step : Step} (hstep : r.tree.steps[k]? = some step) :
    step.index = k := by
  have hindex : (r.tree.steps.toList.map Step.index)[k]? = some step.index := by
    simp [hstep]
  have hlt : k < r.tree.size := (Array.getElem?_eq_some_iff.mp hstep).1
  rw [h.indices, List.getElem?_range hlt] at hindex
  exact (Option.some.inj hindex).symm

/-- A step is linked to the next one of its operation. -/
theorem Accounts.directChild_iff {i : Nat} {step : Step} (hstep : r.tree.steps[i]? = some step)
    (j : Nat) :
    step.directChild = some j ↔ r.tree.IsNext (fun s => s.source = step.source) i j := by
  rw [← EventTree.directChild?_of_step hstep, h.succession.link]
  constructor
  · rintro ⟨x, hjoins⟩
    obtain ⟨a, ha, hx⟩ := hjoins.opened
    obtain rfl := Option.some.inj ((EventTree.getElem?_happenings_of_step hstep).symm.trans ha)
    obtain rfl : step.source = x := Option.some.inj hx
    obtain ⟨b, hb, hcloses⟩ := hjoins.closed
    obtain ⟨step', hstep', rfl⟩ := EventTree.exists_step_of_happening hb
    refine ⟨hjoins.before, ⟨step', hstep', Option.some.inj hcloses⟩, fun k s hik hkj hs hsame => ?_⟩
    exact (hjoins.between k _ hik hkj (EventTree.getElem?_happenings_of_step hs)).1
      (congrArg some hsame)
  · rintro ⟨hlt, ⟨step', hstep', hsame⟩, hfirst⟩
    refine ⟨step.source, ⟨_, EventTree.getElem?_happenings_of_step hstep, rfl⟩,
      ⟨_, EventTree.getElem?_happenings_of_step hstep', congrArg some hsame⟩, hlt,
      fun k a hik hkj ha => ?_, fun _ => False.elim⟩
    obtain ⟨s, hs, rfl⟩ := EventTree.exists_step_of_happening ha
    have hother : s.source ≠ step.source := hfirst k s hik hkj hs
    exact ⟨fun hopens => hother (Option.some.inj hopens),
      fun hcloses => hother (Option.some.inj hcloses)⟩

/-- A step that is to bring something about is linked to the next step that this brings about,
unless another one is to bring the same about before, or it is cut off. -/
theorem Accounts.createdChild_iff {i : Nat} {step : Step} (hstep : r.tree.steps[i]? = some step)
    {x : Cause} (hx : step.happening.brings? = some x) (j : Nat) :
    step.createdChild = some j ↔
      r.tree.IsNext (fun s => s.happening.cause? = some x) i j ∧
        r.tree.NoneBetween (fun s => s.happening.brings? = some x) i j ∧
        ∀ k, cut x k → ¬(i < k ∧ k ≤ j) := by
  rw [← EventTree.createdChild?_of_step hstep, h.causation.link]
  constructor
  · rintro ⟨y, hjoins⟩
    obtain ⟨a, ha, hy⟩ := hjoins.opened
    obtain rfl := Option.some.inj ((EventTree.getElem?_happenings_of_step hstep).symm.trans ha)
    obtain rfl : x = y := Option.some.inj (hx.symm.trans hy)
    obtain ⟨b, hb, hcloses⟩ := hjoins.closed
    obtain ⟨step', hstep', rfl⟩ := EventTree.exists_step_of_happening hb
    refine ⟨⟨hjoins.before, ⟨step', hstep', hcloses⟩, fun k s hik hkj hs => ?_⟩,
      fun k s hik hkj hs => ?_, fun k hcut hk => hjoins.uncut k hcut hk.1 hk.2⟩
    · exact (hjoins.between k _ hik hkj (EventTree.getElem?_happenings_of_step hs)).2
    · exact (hjoins.between k _ hik hkj (EventTree.getElem?_happenings_of_step hs)).1
  · rintro ⟨⟨hlt, ⟨step', hstep', hcause⟩, hfirst⟩, hnone, huncut⟩
    refine ⟨x, ⟨_, EventTree.getElem?_happenings_of_step hstep, hx⟩,
      ⟨_, EventTree.getElem?_happenings_of_step hstep', hcause⟩, hlt,
      fun k a hik hkj ha => ?_, fun k hcut hik hkj => huncut k hcut ⟨hik, hkj⟩⟩
    obtain ⟨s, hs, rfl⟩ := EventTree.exists_step_of_happening ha
    exact ⟨hnone k s hik hkj hs, hfirst k s hik hkj hs⟩

/-- A step that is to bring nothing about is not linked to what it has brought about. -/
theorem Accounts.createdChild_eq_none {i : Nat} {step : Step}
    (hstep : r.tree.steps[i]? = some step) (hnone : step.happening.brings? = none) :
    step.createdChild = none := by
  by_contra hsome
  obtain ⟨j, hj⟩ := Option.ne_none_iff_exists'.mp hsome
  rw [← EventTree.createdChild?_of_step hstep] at hj
  obtain ⟨x, hjoins⟩ := (h.causation.link i j).mp hj
  obtain ⟨a, ha, hx⟩ := hjoins.opened
  obtain rfl := Option.some.inj ((EventTree.getElem?_happenings_of_step hstep).symm.trans ha)
  rw [show Linkage.causation.opens step.happening = none from hnone] at hx
  cases hx

/-- Links lead forward to a step of the tree. -/
theorem Accounts.stepFault?_eq_none {i : Nat} {step : Step} (hstep : r.tree.steps[i]? = some step) :
    EventTree.stepFault? r.tree.size i step = none := by
  have hlink : ∀ kind child, (∀ j, child = some j → i < j ∧ j < r.tree.happenings.length) →
      EventTree.linkFault? r.tree.size i kind child = none := by
    intro kind child hforward
    cases child with
    | none => rfl
    | some j =>
        obtain ⟨hlt, hsize⟩ := hforward j rfl
        rw [r.tree.length_happenings] at hsize
        simp only [EventTree.linkFault?]
        rw [if_neg]
        omega
  have hdirect := hlink .direct step.directChild fun j hj => by
    rw [← EventTree.directChild?_of_step hstep] at hj
    exact h.succession.forward hj
  have hcreated := hlink .created step.createdChild fun j hj => by
    rw [← EventTree.createdChild?_of_step hstep] at hj
    exact h.causation.forward hj
  unfold EventTree.stepFault?
  rw [if_neg (not_not.mpr (h.index_eq hstep)), hdirect, hcreated]
  rfl

theorem Accounts.validate : r.tree.validate = .ok r.tree := by
  obtain ⟨root, hroot, heq⟩ := EventTree.exists_step_of_happening h.root
  have hstart : ¬(root.kind ≠ .start ∨ root.source ≠ .harness) := by
    rintro (hkind | hsource)
    · exact hkind (congrArg Happening.kind heq)
    · exact hsource (congrArg Happening.source heq)
  have hwithheld : (r.tree.withheld.find? fun i =>
      !(r.tree.steps[i]?.map (·.kind)) == some .send) = none := by
    rw [List.find?_eq_none]
    intro k hk
    obtain ⟨step, hstep, hkind⟩ := h.withheld k hk
    simp [hstep, hkind]
  have hbug : r.tree.bugStep.filter (r.tree.size ≤ ·) = none := by
    rw [Option.filter_eq_none_iff]
    intro k hk
    simpa using h.bugStep k hk
  have hfault : r.tree.fault? = none := by
    unfold EventTree.fault?
    simp only [hroot, if_neg hstart, hbug, Option.map_none, Option.or_none, Option.or_eq_none_iff,
      List.findSome?_eq_none_iff, Option.map_eq_none_iff]
    refine ⟨?_, hwithheld⟩
    rintro ⟨s, position⟩ hmem
    rw [List.mk_mem_zipIdx_iff_getElem?, Array.getElem?_toList] at hmem
    exact h.stepFault?_eq_none hmem
  unfold EventTree.validate
  rw [hfault]

end Links

/-- The tree shows what happened before what. Whatever calls are made to a fresh recorder, its tree
is valid, and its steps are the root and what happened at the calls, in order. A step is linked to
the next one of its operation; a creation to the next start of the created operation, unless this is
created again in between; a send to the next receive of its message, unless this is sent again or
withheld in between; and no other step has a causal link. No step is linked from two others in the
same way. -/
theorem tree_is_happens_before (calls : List Call) :
    let t := (empty.afterAll calls).tree
    t.validate = .ok t ∧
    t.happenings = EventTree.rootStep.happening :: calls.filterMap Call.happening? ∧
    (∀ (i : Nat) (step : Step), t.steps[i]? = some step →
      (∀ j, step.directChild = some j ↔ t.IsNext (fun s => s.source = step.source) i j) ∧
      (step.kind = .create → ∀ j, step.createdChild = some j ↔
        t.IsNext (fun s => s.kind = .start ∧ s.source = step.target) i j ∧
        t.NoneBetween (fun s => s.kind = .create ∧ s.target = step.target) i j) ∧
      (step.kind = .send → ∀ m, step.message? = some m → ∀ j, step.createdChild = some j ↔
        t.IsNext (fun s => s.kind = .receive ∧ s.message? = some m) i j ∧
        t.NoneBetween (fun s => s.kind = .send ∧ s.message? = some m) i j ∧
        ∀ k, Withholds calls m k → ¬(i < k ∧ k ≤ j)) ∧
      (step.kind ≠ .create → (step.kind = .send → step.message? = none) →
        step.createdChild = none)) ∧
    (∀ i i' j, t.directChild? i = some j → t.directChild? i' = some j → i = i') ∧
    (∀ i i' j, t.createdChild? i = some j → t.createdChild? i' = some j → i = i') := by
  intro t
  have h := accounts_afterAll calls
  refine ⟨h.validate, happenings_afterAll calls, fun i step hstep => ⟨h.directChild_iff hstep,
    fun hkind j => ?_, fun hkind m hm j => ?_,
    fun hcreate hsend => h.createdChild_eq_none hstep ?_⟩,
    fun _ _ _ => h.succession.left_unique, fun _ _ _ => h.causation.left_unique⟩
  · have hx : step.happening.brings? = some (.creation step.target) :=
      Happening.brings?_eq_creation_iff.mpr ⟨hkind, rfl⟩
    rw [h.createdChild_iff hstep hx]
    simp only [Happening.cause?_eq_creation_iff, Happening.brings?_eq_creation_iff]
    -- a creation is never cut off
    exact and_congr_right fun _ => and_iff_left (by simp)
  · have hx : step.happening.brings? = some (.delivery m) :=
      Happening.brings?_eq_delivery_iff.mpr ⟨hkind, hm⟩
    rw [h.createdChild_iff hstep hx]
    simp only [Happening.cause?_eq_delivery_iff, Happening.brings?_eq_delivery_iff]
    refine and_congr_right fun _ => and_congr_right fun _ => ?_
    simp
  · rw [Option.eq_none_iff_forall_ne_some]
    intro x hx
    cases x with
    | creation created => exact hcreate (Happening.brings?_eq_creation_iff.mp hx).1
    | delivery m =>
        obtain ⟨hkind, hm⟩ := Happening.brings?_eq_delivery_iff.mp hx
        rw [show step.happening.message? = none from hsend hkind] at hm
        cases hm

end Recorder

end Interleave
