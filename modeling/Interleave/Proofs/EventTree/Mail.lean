import Interleave.Program.Action
import Interleave.Proofs.EventTree.Places
import Mathlib.Data.List.Forall2
import Mathlib.Logic.Function.Basic

/-!
# Mail in a tree

The sends of a tree that were delivered to an operation, in order, are its deliveries, and the
steps at which it took a message its receipts. While a program runs under a recorder, the first
deliveries are linked to the receipts, one by one and in order, and the others wait for the messages
that lie in the inbox of the operation (`Recorder.Mails`). All that a running program tells its
recorder keeps this up as the inboxes change: a delivery puts a message into an inbox, a receive
takes the first one out, and a send that is withheld and everything else leave the inboxes alone.
-/

namespace Interleave

open Function (update)

namespace EventTree

/-- The sends of messages that were delivered to the operation, in order. -/
def deliveries (t : EventTree) (x : OperationId) : List Nat :=
  (t.places (Happening.isSendTo x)).filter fun k => !t.isWithheld k

/-- The receives of the operation, in order. -/
def receipts (t : EventTree) (x : OperationId) : List Nat :=
  t.places (Happening.isReceiveOf x)

/-- The send at `i` is linked to the receive at `j`, by which the operation took its message. -/
def Passes (t : EventTree) (x : OperationId) (i j : Nat) : Prop :=
  t.createdChild? i = some j ∧ ∃ sender event,
    t.happenings[i]? = some ⟨.send, sender, x, some event⟩ ∧
      t.happenings[j]? = some ⟨.receive, x, x, some event⟩

theorem nodup_deliveries (t : EventTree) (x : OperationId) : (t.deliveries x).Nodup :=
  ((t.pairwise_places _).filter _).imp Nat.ne_of_lt

end EventTree

/-- Every entry of the second list has its partner in the first one. -/
theorem exists_of_forall₂ {α β : Type} {R : α → β → Prop} {as : List α} {bs : List β}
    (h : List.Forall₂ R as bs) {b : β} (hb : b ∈ bs) : ∃ a, R a b := by
  induction h with
  | nil => cases hb
  | cons hfirst _ ih =>
      rcases List.mem_cons.mp hb with rfl | hrest
      · exact ⟨_, hfirst⟩
      · exact ih hrest

namespace Recorder

variable {r r' : Recorder} {cut : Cause → Nat → Prop} {a : Happening} {lost : Bool}
  {inbox : OperationId → List Message}

/-- The send at `k` waits for the operation to take the message. -/
def Carries (r : Recorder) (x : OperationId) (k : Nat) (message : Message) : Prop :=
  r.pending (.delivery message.id) = some k ∧
    r.tree.happenings[k]? = some ⟨.send, message.sender, x, some message.event⟩

/-- The first deliveries to the operation are linked to its receipts, and the others carry the
messages that lie in its inbox. -/
def Mail (r : Recorder) (x : OperationId) (messages : List Message) : Prop :=
  ∃ got waiting, r.tree.deliveries x = got ++ waiting ∧
    List.Forall₂ (r.tree.Passes x) got (r.tree.receipts x) ∧
      List.Forall₂ (r.Carries x) waiting messages

/-- The inboxes of all operations are as the recording has them. -/
def Mails (r : Recorder) (inbox : OperationId → List Message) : Prop :=
  ∀ x, r.Mail x (inbox x)

/-- At the start of a run all inboxes are empty. -/
theorem mails_empty : empty.Mails fun _ => [] := by
  intro x
  have hdeliveries : empty.tree.deliveries x = [] := by
    rw [EventTree.deliveries, places_empty (by simp [Happening.isSendTo])]
    rfl
  have hreceipts : empty.tree.receipts x = [] := places_empty (by simp [Happening.isReceiveOf])
  refine ⟨[], [], hdeliveries, ?_, .nil⟩
  rw [hreceipts]
  exact .nil

theorem Mails.congr (h : r.Mails inbox) (htree : r'.tree = r.tree)
    (hpending : r'.pending = r.pending) : r'.Mails inbox := by
  intro x
  obtain ⟨got, waiting, hdeliveries, hgot, hwaiting⟩ := h x
  refine ⟨got, waiting, by rwa [htree], by rwa [htree], hwaiting.imp fun k message hcarries => ?_⟩
  rw [Carries, htree, hpending]
  exact hcarries

theorem Carries.id_ne {x : OperationId} {k : Nat} {message other : Message}
    (h : r.Carries x k other) (hfresh : r.pending (.delivery message.id) = none) :
    message.id ≠ other.id := by
  intro hid
  rw [hid, h.1] at hfresh
  cases hfresh

/-! ## One more exchange -/

section Notes

variable (h : r.Notes a lost r')

include h

/-- A send that is delivered is one more delivery to its target. -/
theorem Notes.deliveries (x : OperationId) : r'.tree.deliveries x =
    r.tree.deliveries x ++ if a.isSendTo x && !lost then [r.tree.size] else [] := by
  have hold : ∀ k ∈ r.tree.places (Happening.isSendTo x),
      (!r'.tree.isWithheld k) = !r.tree.isWithheld k := by
    intro k hk
    obtain ⟨b, hb, -⟩ := EventTree.mem_places.mp hk
    have hlt := (List.getElem?_eq_some_iff.mp hb).1
    rw [r.tree.length_happenings] at hlt
    rw [h.isWithheld, if_neg (Nat.ne_of_lt hlt)]
  unfold EventTree.deliveries
  rw [h.places, List.filter_append, List.filter_congr hold]
  congr 1
  cases a.isSendTo x with
  | false => rfl
  | true => cases lost <;> simp [h.isWithheld]

theorem Notes.receipts (x : OperationId) : r'.tree.receipts x =
    r.tree.receipts x ++ if a.isReceiveOf x then [r.tree.size] else [] :=
  h.places _

theorem Notes.passes_old (haccounts : r.Accounts cut) {x : OperationId} {i j : Nat}
    (hpass : r.tree.Passes x i j) : r'.tree.Passes x i j := by
  obtain ⟨hlink, sender, event, hi, hj⟩ := hpass
  exact ⟨h.createdChild?_old haccounts hlink, sender, event, h.happening_old hi,
    h.happening_old hj⟩

theorem Notes.carries_old {x : OperationId} {k : Nat} {message : Message}
    (hcarries : r.Carries x k message) (hbrings : a.brings? ≠ some (.delivery message.id))
    (hcause : a.cause? ≠ some (.delivery message.id)) : r'.Carries x k message :=
  ⟨(h.pending_old hbrings hcause).trans hcarries.1, h.happening_old hcarries.2⟩

/-- An inbox is left alone by what is neither delivered to its operation nor received by it and
concerns none of its messages. -/
theorem Notes.mail (haccounts : r.Accounts cut) {x : OperationId} {messages : List Message}
    (hmail : r.Mail x messages) (hsend : (a.isSendTo x && !lost) = false)
    (hreceive : a.isReceiveOf x = false)
    (hothers : ∀ k message, r.Carries x k message →
      a.brings? ≠ some (.delivery message.id) ∧ a.cause? ≠ some (.delivery message.id)) :
    r'.Mail x messages := by
  obtain ⟨got, waiting, hdeliveries, hgot, hwaiting⟩ := hmail
  refine ⟨got, waiting, ?_, ?_, hwaiting.imp fun k message hcarries => ?_⟩
  · rw [h.deliveries, hsend]
    simpa using hdeliveries
  · rw [h.receipts, hreceive]
    simpa using hgot.imp fun i j => h.passes_old haccounts
  · obtain ⟨hbrings, hcause⟩ := hothers k message hcarries
    exact h.carries_old hcarries hbrings hcause

end Notes

section Mails

variable (haccounts : r.Accounts cut) (hmails : r.Mails inbox)

include haccounts hmails

/-- What is neither a send nor a receive leaves all inboxes alone. -/
theorem Notes.mails_other (h : r.Notes a lost r') (hsend : a.kind ≠ .send)
    (hreceive : a.kind ≠ .receive) : r'.Mails inbox := by
  intro x
  refine h.mail haccounts (hmails x) ?_ ?_ fun k message _ => ⟨?_, ?_⟩
  · simp [Happening.isSendTo, hsend]
  · simp [Happening.isReceiveOf, hreceive]
  · rw [Ne, Happening.brings?_eq_delivery_iff]
    exact fun hbrings => hsend hbrings.1
  · rw [Ne, Happening.cause?_eq_delivery_iff]
    exact fun hcause => hreceive hcause.1

/-- A send that is withheld leaves all inboxes alone. -/
theorem Notes.mails_withhold {message : Message} {target : OperationId}
    (h : r.Notes ⟨.send, message.sender, target, some message.event⟩ true r')
    (hfresh : r.pending (.delivery message.id) = none) : r'.Mails inbox := by
  intro x
  refine h.mail haccounts (hmails x) (by simp) (by simp [Happening.isReceiveOf])
    fun k other hcarries => ⟨fun hbrings => ?_, nofun⟩
  exact hcarries.id_ne hfresh (Cause.delivery.inj (Option.some.inj hbrings))

/-- A send that is delivered puts its message into the inbox of its target. -/
theorem Notes.mails_deliver {message : Message} {target : OperationId}
    (h : r.Notes ⟨.send, message.sender, target, some message.event⟩ false r')
    (hfresh : r.pending (.delivery message.id) = none) :
    r'.Mails (update inbox target (inbox target ++ [message])) := by
  intro x
  have hothers : ∀ k other, r.Carries x k other →
      (⟨.send, message.sender, target, some message.event⟩ : Happening).brings? ≠
        some (.delivery other.id) :=
    fun k other hcarries hbrings =>
      hcarries.id_ne hfresh (Cause.delivery.inj (Option.some.inj hbrings))
  by_cases hx : x = target
  · subst hx
    rw [Function.update_self]
    obtain ⟨got, waiting, hdeliveries, hgot, hwaiting⟩ := hmails x
    have hnew : r'.Carries x r.tree.size message := by
      refine ⟨?_, h.happening_new⟩
      rw [h.pending]
      exact if_pos rfl
    have hold := hwaiting.imp fun k other hcarries =>
      h.carries_old hcarries (hothers k other hcarries) nofun
    refine ⟨got, waiting ++ [r.tree.size], ?_, ?_, List.rel_append hold (.cons hnew .nil)⟩
    · rw [h.deliveries, hdeliveries, List.append_assoc]
      simp [Happening.isSendTo]
    · rw [h.receipts]
      simpa [Happening.isReceiveOf] using hgot.imp fun i j => h.passes_old haccounts
  · rw [Function.update_of_ne hx]
    refine h.mail haccounts (hmails x) ?_ (by simp [Happening.isReceiveOf])
      fun k other hcarries => ⟨hothers k other hcarries, nofun⟩
    simp [Happening.isSendTo, Ne.symm hx]

/-- A receive takes the first message out of the inbox. -/
theorem Notes.mails_receive {x : OperationId} {message : Message} {rest : List Message}
    (h : r.Notes ⟨.receive, x, x, some message.event⟩ false r')
    (hinbox : inbox x = message :: rest) : r'.Mails (update inbox x rest) := by
  obtain ⟨got, waiting, hdeliveries, hgot, hwaiting⟩ := hmails x
  rw [hinbox] at hwaiting
  cases hwaiting with
  | @cons k _ waiting _ hfirst hwaiting =>
  have hcause : (⟨.receive, x, x, some message.event⟩ : Happening).cause? =
    some (.delivery message.id) := rfl
  -- what waits under the identity of the message is the send of the message
  have hsame : ∀ {y k' other}, r.Carries y k' other → other.id = message.id → k' = k := by
    intro y k' other hcarries hid
    have hpending := hcarries.1
    rw [hid, hfirst.1] at hpending
    exact (Option.some.inj hpending).symm
  intro y
  by_cases hy : y = x
  · subst hy
    rw [Function.update_self]
    have hnew : r'.tree.Passes y k r.tree.size :=
      ⟨h.createdChild?_new hcause hfirst.1, message.sender, message.event,
        h.happening_old hfirst.2, h.happening_new⟩
    refine ⟨got ++ [k], waiting, ?_, ?_, ?_⟩
    · rw [h.deliveries, hdeliveries]
      simp [Happening.isSendTo]
    · rw [h.receipts]
      refine List.rel_append (hgot.imp fun i j => h.passes_old haccounts) ?_
      simpa [Happening.isReceiveOf] using hnew
    · -- each delivery waits for one message only
      have hnodup := r.tree.nodup_deliveries y
      rw [hdeliveries] at hnodup
      have hnot : ∀ k' ∈ waiting, k' ≠ k := by
        rintro k' hk' rfl
        exact (List.nodup_cons.mp (List.nodup_append.mp hnodup).2.1).1 hk'
      refine ((List.forall₂_and_left _ _).mpr ⟨hnot, hwaiting⟩).imp fun k' other hother => ?_
      refine h.carries_old hother.2 nofun fun heq => hother.1 (hsame hother.2 ?_)
      exact (Cause.delivery.inj (Option.some.inj heq)).symm
  · rw [Function.update_of_ne hy]
    refine h.mail haccounts (hmails y) (by simp [Happening.isSendTo]) ?_
      fun k' other hcarries => ⟨nofun, fun heq => hy ?_⟩
    · simp [Happening.isReceiveOf, Ne.symm hy]
    · -- a message lies in one inbox only
      obtain rfl := hsame hcarries (Cause.delivery.inj (Option.some.inj heq)).symm
      have htargets := hcarries.2.symm.trans hfirst.2
      exact congrArg Happening.target (Option.some.inj htargets)

end Mails

/-! ## Reading the mail -/

/-- Every receive is linked from a send to its operation, which is of the same event. -/
theorem Mails.exists_passes (hmails : r.Mails inbox) {j : Nat} {b : Happening}
    (hj : r.tree.happenings[j]? = some b) (hreceive : b.kind = .receive) :
    ∃ i, r.tree.Passes b.source i j := by
  obtain ⟨got, waiting, -, hgot, -⟩ := hmails b.source
  refine exists_of_forall₂ hgot (EventTree.mem_places.mpr ⟨b, hj, ?_⟩)
  simp [Happening.isReceiveOf, hreceive]

/-- The deliveries that are linked come first, and they are linked to the receipts in order. -/
theorem Mail.linked (haccounts : r.Accounts cut) {x : OperationId} {messages : List Message}
    (hmail : r.Mail x messages) : ∃ got waiting, r.tree.deliveries x = got ++ waiting ∧
      got.map r.tree.createdChild? = (r.tree.receipts x).map some ∧
        ∀ k ∈ waiting, r.tree.createdChild? k = none := by
  obtain ⟨got, waiting, hdeliveries, hgot, hwaiting⟩ := hmail
  refine ⟨got, waiting, hdeliveries, ?_, fun k hk => ?_⟩
  · rw [← List.forall₂_eq_eq_eq, List.forall₂_map_left_iff, List.forall₂_map_right_iff]
    exact hgot.imp fun i j hpass => hpass.1
  · obtain ⟨message, hcarries⟩ := exists_of_forall₂ hwaiting.flip hk
    exact haccounts.causation.link_eq_none hcarries.1

end Recorder

end Interleave
