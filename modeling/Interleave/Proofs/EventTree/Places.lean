import Interleave.Proofs.EventTree.HappensBefore

/-!
# Places in a tree

The places of a tree are the indices of those of its steps of which something holds, in order
(`EventTree.places`). An exchange at which something happens adds one step to a recorded tree and
makes at most one causal link; a send that is withheld is lost, and nothing waits for it
(`Recorder.Notes`). At any other exchange steps, links and what waits stay as they are.
-/

namespace Interleave

namespace Happening

/-- Whether the operation created another one. -/
def isCreateOf (x : OperationId) (a : Happening) : Bool :=
  a.kind = .create ∧ a.target = x

/-- Whether the operation started. -/
def isStartOf (x : OperationId) (a : Happening) : Bool :=
  a.kind = .start ∧ a.source = x

/-- Whether a message was sent to the operation. -/
def isSendTo (x : OperationId) (a : Happening) : Bool :=
  a.kind = .send ∧ a.target = x

/-- Whether the operation took a message. -/
def isReceiveOf (x : OperationId) (a : Happening) : Bool :=
  a.kind = .receive ∧ a.source = x

/-- Whether the operation did something. -/
def isStepOf (x : OperationId) (a : Happening) : Bool :=
  a.source = x

end Happening

namespace EventTree

variable {t t' : EventTree} {a : Happening} {p : Happening → Bool}

/-- The places of the happenings of which `p` holds, in order. -/
def places (t : EventTree) (p : Happening → Bool) : List Nat :=
  (List.range t.size).filter fun k => t.happenings[k]?.any p

theorem mem_places {k : Nat} :
    k ∈ t.places p ↔ ∃ a, t.happenings[k]? = some a ∧ p a = true := by
  simp only [places, List.mem_filter, List.mem_range, Option.any_eq_true]
  constructor
  · exact fun h => h.2
  · rintro ⟨a, ha, hp⟩
    have hlt := (List.getElem?_eq_some_iff.mp ha).1
    rw [length_happenings] at hlt
    exact ⟨hlt, a, ha, hp⟩

theorem pairwise_places (t : EventTree) (p : Happening → Bool) : (t.places p).Pairwise (· < ·) :=
  List.pairwise_lt_range.filter _

/-- One more happening has its place behind all others. -/
theorem places_concat (h : t'.happenings = t.happenings ++ [a]) (p : Happening → Bool) :
    t'.places p = t.places p ++ if p a then [t.size] else [] := by
  have hsize : t'.size = t.size + 1 := by
    rw [← length_happenings, h, List.length_append, length_happenings]
    rfl
  have hold : ∀ k ∈ List.range t.size,
      t'.happenings[k]?.any p = t.happenings[k]?.any p := by
    intro k hk
    rw [h, List.getElem?_append_left]
    rw [length_happenings]
    exact List.mem_range.mp hk
  have hnew : t'.happenings[t.size]? = some a := by
    rw [h, ← length_happenings, List.getElem?_concat_length]
  unfold places
  rw [hsize, List.range_succ, List.filter_append, List.filter_congr hold]
  simp only [List.filter_cons, List.filter_nil, hnew, Option.any_some]

end EventTree

/-- What happens at an exchange. -/
def Exchange.happening? : Exchange → Option Happening
  | .notice n => n.happening?
  | .send sender target event _ => some ⟨.send, sender, target, some event⟩
  | _ => none

/-- Whether the exchange is a send that is withheld. -/
def Exchange.isLost : Exchange → Bool
  | .send _ _ _ .withhold => true
  | _ => false

namespace Recorder

variable {r r' : Recorder} {cut : Cause → Nat → Prop} {a : Happening} {lost : Bool}

theorem places_empty {p : Happening → Bool} (hp : p ⟨.start, .harness, .harness, none⟩ = false) :
    empty.tree.places p = [] := by
  have hroot : empty.tree.happenings = [⟨.start, .harness, .harness, none⟩] := rfl
  have hsize : empty.tree.size = 1 := rfl
  unfold EventTree.places
  rw [hroot, hsize]
  simp [hp]

/-- Behind its first step every step of an operation is linked from an earlier one. -/
theorem Accounts.exists_directChild? (h : r.Accounts cut) {i k : Nat} {b c : Happening}
    (hi : r.tree.happenings[i]? = some b) (hk : r.tree.happenings[k]? = some c) (hik : i < k)
    (hsame : b.source = c.source) : ∃ j < k, r.tree.directChild? j = some k := by
  -- go on from a step of the operation in between, as long as there is one
  by_cases hbetween : ∃ j d, i < j ∧ j < k ∧ r.tree.happenings[j]? = some d ∧ d.source = c.source
  · obtain ⟨j, d, hij, hjk, hj, hd⟩ := hbetween
    exact h.exists_directChild? hj hk hjk hd
  · refine ⟨i, hik, (h.succession.link i k).mpr ⟨c.source, ⟨b, hi, congrArg some hsame⟩,
      ⟨c, hk, rfl⟩, hik, fun j d hij hjk hj => ?_, fun _ => False.elim⟩⟩
    have hother : some d.source ≠ some c.source :=
      fun heq => hbetween ⟨j, d, hij, hjk, hj, Option.some.inj heq⟩
    exact ⟨hother, hother⟩
termination_by k - i

/-! ## One more exchange -/

/-- A recording that has taken note of one more happening, which is lost if it is a send that is
withheld. -/
structure Notes (r : Recorder) (a : Happening) (lost : Bool) (r' : Recorder) : Prop where
  happenings : r'.tree.happenings = r.tree.happenings ++ [a]
  isWithheld : ∀ k, r'.tree.isWithheld k =
    if k = r.tree.size then lost else r.tree.isWithheld k
  created : ∀ k, r'.tree.createdChild? k =
    if a.cause?.bind r.pending = some k then some r.tree.size else r.tree.createdChild? k
  pending : ∀ x, r'.pending x =
    if some x = a.brings? then if lost then none else some r.tree.size
    else if some x = a.cause? then none
    else r.pending x

theorem Adds.notes (h : r.Adds a r') (hsound : r.Sound) : r.Notes a false r' where
  happenings := h.happenings
  isWithheld k := by
    unfold EventTree.isWithheld
    rw [h.withheld]
    split
    · rename_i hk
      rw [hk]
      simpa using hsound.size_notMem
    · rfl
  created := h.created
  pending := h.pending

/-- The send that has just been added is marked as withheld. -/
theorem Adds.notes_markWithheld {sender target : OperationId} {event : Event}
    (h : r.Adds ⟨.send, sender, target, some event⟩ r') :
    r.Notes ⟨.send, sender, target, some event⟩ true (r'.markWithheld r.tree.size) := by
  have hnew : r'.tree.happenings[r.tree.size]? = some ⟨.send, sender, target, some event⟩ := by
    rw [h.happenings, ← r.tree.length_happenings, List.getElem?_concat_length]
  obtain ⟨step, hstep, heq⟩ := EventTree.exists_step_of_happening hnew
  have hkind : step.kind = .send := congrArg Happening.kind heq
  have hevent : step.event = some event := congrArg Happening.event heq
  -- the entry that has been made for this send is taken back
  have hpending : ∀ x, (r'.markWithheld r.tree.size).pending x =
      if some x = event.message.map .delivery then none else r'.pending x := by
    intro x
    unfold Recorder.markWithheld
    simp only [hstep, if_pos hkind, hevent, Option.bind_some]
    cases x with
    | creation created => cases event.message <;> simp [Recorder.pending]
    | delivery m => cases event.message <;> simp [Recorder.pending, lookup_dissoc]
  have hmarked : (r'.markWithheld r.tree.size).tree = r'.tree.withhold r.tree.size := by
    unfold Recorder.markWithheld
    simp only [hstep, if_pos hkind]
  refine ⟨?_, fun k => ?_, fun k => ?_, fun x => ?_⟩
  · rw [hmarked]
    exact h.happenings
  · rw [hmarked, Bool.eq_iff_iff]
    simp only [EventTree.isWithheld, EventTree.withhold, List.contains_iff_mem,
      mem_insertAscending, h.withheld]
    by_cases hk : k = r.tree.size <;> simp [hk]
  · rw [hmarked]
    exact h.created k
  · have hbrings : (⟨.send, sender, target, some event⟩ : Happening).brings? =
        event.message.map .delivery := rfl
    rw [hpending, h.pending, hbrings]
    by_cases hx : some x = event.message.map .delivery <;> simp [hx]

/-- An exchange at which something happens is taken note of. -/
theorem Accounts.notes_hear (h : r.Accounts cut) (hsound : r.Sound) {e : Exchange}
    (ha : e.happening? = some a) : r.Notes a e.isLost (r.hear e) := by
  cases e with
  | notice n => exact (h.adds_record ha).notes hsound
  | send sender target event delivery =>
      cases ha
      have hadds := h.adds_recordSend sender target event
      cases delivery with
      | deliver => exact hadds.notes hsound
      | withhold =>
          have hindex : (r.recordSend sender target event).1 = r.tree.size := by rw [recordSend_eq]
          have hmarked := hadds.notes_markWithheld
          rw [← hindex] at hmarked
          exact hmarked
  | _ => cases ha

/-- Every exchange keeps the account. -/
theorem Accounts.hear (h : r.Accounts cut) (e : Exchange) : ∃ cut', (r.hear e).Accounts cut' := by
  cases e with
  | notice n => exact ⟨cut, h.record n⟩
  | send sender target event delivery =>
      have hsent := h.add (h.adds_recordSend sender target event)
      cases delivery with
      | deliver => exact ⟨cut, hsent⟩
      | withhold => exact ⟨_, hsent.markWithheld (r.recordSend sender target event).1⟩
  | _ => exact ⟨cut, h⟩

/-- Where nothing happens, the tree stays as it is and the same steps wait. -/
theorem same_hear {e : Exchange} (hdeed : e.deed? = none) (r : Recorder) :
    (r.hear e).tree = r.tree ∧ (r.hear e).pending = r.pending := by
  obtain ⟨htree, -, hcreates, hsends⟩ := hear_of_deed?_eq_none hdeed r
  refine ⟨htree, funext fun x => ?_⟩
  cases x with
  | creation created => exact congrArg (List.lookup created) hcreates
  | delivery m => exact congrArg (List.lookup m) hsends

section Notes

variable (h : r.Notes a lost r')

include h

theorem Notes.happening_new : r'.tree.happenings[r.tree.size]? = some a := by
  rw [h.happenings, ← r.tree.length_happenings, List.getElem?_concat_length]

theorem Notes.happening_old {k : Nat} {b : Happening} (hk : r.tree.happenings[k]? = some b) :
    r'.tree.happenings[k]? = some b := by
  rw [h.happenings, List.getElem?_append_left (List.getElem?_eq_some_iff.mp hk).1]
  exact hk

theorem Notes.places (p : Happening → Bool) :
    r'.tree.places p = r.tree.places p ++ if p a then [r.tree.size] else [] :=
  EventTree.places_concat h.happenings p

/-- Links that have been made stay. -/
theorem Notes.createdChild?_old (haccounts : r.Accounts cut) {i j : Nat}
    (hlink : r.tree.createdChild? i = some j) : r'.tree.createdChild? i = some j := by
  rw [h.created, if_neg]
  · exact hlink
  · intro hwaits
    obtain ⟨x, -, hx⟩ := Option.bind_eq_some_iff.mp hwaits
    rw [haccounts.causation.link_eq_none hx] at hlink
    cases hlink

/-- What happens is linked from the step that waited for it. -/
theorem Notes.createdChild?_new {x : Cause} {k : Nat} (hcause : a.cause? = some x)
    (hk : r.pending x = some k) : r'.tree.createdChild? k = some r.tree.size := by
  rw [h.created, hcause, Option.bind_some, if_pos hk]

/-- What is neither brought about nor to be brought about by what happens waits as before. -/
theorem Notes.pending_old {x : Cause} (hbrings : a.brings? ≠ some x) (hcause : a.cause? ≠ some x) :
    r'.pending x = r.pending x := by
  rw [h.pending, if_neg (Ne.symm hbrings), if_neg (Ne.symm hcause)]

/-- What waits has been added just now or has waited before. -/
theorem Notes.pending_cases {x : Cause} {k : Nat} (hk : r'.pending x = some k) :
    a.brings? = some x ∨ r.pending x = some k := by
  rw [h.pending] at hk
  split at hk
  · rename_i hbrings
    exact Or.inl hbrings.symm
  · split at hk
    · cases hk
    · exact Or.inr hk

end Notes

end Recorder

end Interleave
