import Interleave.Proofs.EventTree.Mail
import Interleave.Proofs.EventTree.Roster
import Interleave.Proofs.Program.Continuing
import Interleave.Proofs.Program.LockStep

/-!
# Messages arrive in order

A run files what it does with the recorder of its strategy: the recording has the inboxes, it knows
which operations have been created and which have begun, and no message with the next identity or a
later one waits in it (`Machine.Filed`). Every way in which a step goes on keeps this
(`Machine.Filed.continues`), and the step that stops the run adds nothing to the tree, nor does any
later one (`Machine.Files.stepThread`). So the tree of any run shows that messages are received in
the order of their deliveries, none is lost and none comes twice, and that every step can be reached
from the root (`Program.messages_arrive_in_order`).
-/

namespace Interleave

open Function (update)

variable {σ β : Type}

/-- The tree shows that messages arrive in order and that operations start once they have been
created. -/
structure EventTree.InOrder (t : EventTree) : Prop where
  /-- Every receive is linked from exactly one step, an earlier send of the same event to its
  operation. -/
  receives : ∀ (j : Nat) (step : Step), t.steps[j]? = some step → step.kind = .receive →
    ∃ (i : Nat) (send : Step), i < j ∧ t.steps[i]? = some send ∧ send.kind = .send ∧
      send.target = step.source ∧ send.event = step.event ∧ step.event ≠ none ∧
        ∀ i', t.createdChild? i' = some j ↔ i' = i
  /-- The deliveries that are linked come first, and they are linked to the receipts in order. -/
  deliveries : ∀ x, ∃ got waiting, t.deliveries x = got ++ waiting ∧
    got.map t.createdChild? = (t.receipts x).map some ∧ ∀ k ∈ waiting, t.createdChild? k = none
  /-- A send that is withheld is not linked. -/
  withheld : ∀ k ∈ t.withheld, t.createdChild? k = none
  /-- An operation with a step has started once, at its first step, which is linked from exactly one
  step, its one creation. -/
  starts : ∀ x ≠ .harness, t.places (Happening.isStepOf x) ≠ [] →
    ∃ i j rest, t.places (Happening.isCreateOf x) = [i] ∧
      t.places (Happening.isStepOf x) = j :: rest ∧ t.places (Happening.isStartOf x) = [j] ∧
        ∀ i', t.createdChild? i' = some j ↔ i' = i
  /-- Every step can be reached from the root. -/
  reachable : ∀ k < t.size, Relation.ReflTransGen t.Leads 0 k

/-- The result of a run does not count. -/
theorem EventTree.InOrder.congr {t t' : EventTree} (h : t.InOrder) (hsteps : t'.steps = t.steps)
    (hwithheld : t'.withheld = t.withheld) : t'.InOrder := by
  obtain ⟨steps, withheld⟩ := t
  obtain ⟨steps', withheld'⟩ := t'
  obtain rfl : steps' = steps := hsteps
  obtain rfl : withheld' = withheld := hwithheld
  exact ⟨h.receives, h.deliveries, h.withheld, h.starts, h.reachable⟩

namespace Machine

/-- How far an operation has come: nothing if it has not been created, and otherwise whether it has
begun. -/
def stage (m : Machine σ β) (x : OperationId) : Option Bool :=
  (m.status? x).map Status.hasBegun

theorem stage_eq_comp (m : Machine σ β) : m.stage = Option.map Status.hasBegun ∘ m.status? := rfl

/-- The recording is that of a run which has come to this state. -/
structure Filed (m : Machine σ β) (r : Recorder) : Prop where
  sound : r.Sound
  accounts : ∃ cut, r.Accounts cut
  mails : r.Mails m.inbox
  unused : ∀ id k, r.pending (.delivery id) = some k → id.value.toNat < m.nextMessage.toNat
  stages : ∀ x ≠ .harness, r.Stage x (m.stage x)

/-! ## What a tree shows -/

/-- A tree that is filed is in order. -/
theorem Filed.inOrder {m : Machine σ β} {r : Recorder} (h : m.Filed r) : r.tree.InOrder := by
  obtain ⟨cut, haccounts⟩ := h.accounts
  have hunique : ∀ {i j : Nat}, r.tree.createdChild? i = some j →
      ∀ i', r.tree.createdChild? i' = some j ↔ i' = i := by
    intro i j hlink i'
    exact ⟨fun hlink' => haccounts.causation.left_unique hlink' hlink, fun heq => heq ▸ hlink⟩
  refine ⟨fun j step hstep hkind => ?_, fun x => (h.mails x).linked haccounts, fun k hk => ?_,
    fun x hx hsteps => ?_, fun k hk => haccounts.reachable (fun x hx => ⟨_, h.stages x hx⟩) hk⟩
  · have hj := EventTree.getElem?_happenings_of_step hstep
    obtain ⟨i, hlink, sender, event, hi, hj'⟩ := h.mails.exists_passes hj hkind
    obtain ⟨send, hsend, hshape⟩ := EventTree.exists_step_of_happening hi
    have hevent : step.event = some event :=
      congrArg Happening.event (Option.some.inj (hj.symm.trans hj'))
    have hsame : send.event = some event := congrArg Happening.event hshape
    exact ⟨i, send, (haccounts.causation.forward hlink).1, hsend,
      congrArg Happening.kind hshape, congrArg Happening.target hshape, hsame.trans hevent.symm,
      by simp [hevent], hunique hlink⟩
  · obtain ⟨step, hstep, hcreated⟩ := h.sound.withheld k hk
    exact (EventTree.createdChild?_of_step hstep).trans hcreated
  · obtain ⟨k, hk⟩ := List.exists_mem_of_ne_nil _ hsteps
    obtain ⟨i, j, rest, hcreations, hsteps, hstarts, hlink⟩ := (h.stages x hx).exists_start hk
    exact ⟨i, j, rest, hcreations, hsteps, hstarts, hunique hlink⟩

/-! ## Steps of a run -/

section Filed

variable {m m' : Machine σ β} {r : Recorder}

theorem Filed.congr (h : m.Filed r) (hinbox : m'.inbox = m.inbox)
    (hnext : m'.nextMessage = m.nextMessage)
    (hstage : ∀ x ≠ .harness, m'.stage x = m.stage x) : m'.Filed r where
  sound := h.sound
  accounts := h.accounts
  mails := hinbox ▸ h.mails
  unused := hnext ▸ h.unused
  stages x hx := hstage x hx ▸ h.stages x hx

/-- Exchanges at which nothing happens are not filed. -/
theorem Filed.silent (h : m.Filed r) {l : List Exchange} (hl : ∀ e ∈ l, e.deed? = none) :
    m.Filed (r.hearAll l) := by
  induction l generalizing r with
  | nil => exact h
  | cons e l ih =>
      obtain ⟨cut, haccounts⟩ := h.accounts
      obtain ⟨htree, hpending⟩ := Recorder.same_hear (hl e List.mem_cons_self) r
      have hfiled : m.Filed (r.hear e) := by
        refine ⟨(h.sound.hear e).1, haccounts.hear e, h.mails.congr htree hpending, ?_,
          fun x hx => (h.stages x hx).congr htree hpending⟩
        rw [hpending]
        exact h.unused
      exact ih hfiled fun e he => hl e (List.mem_cons_of_mem _ he)

theorem stage_of_update {a : OperationId} {status : Status β}
    (h : m'.status? = update m.status? a (some status)) :
    m'.stage = update m.stage a (some status.hasBegun) := by
  rw [stage_eq_comp, h, Function.comp_update]
  rfl

/-- An operation that stays at its stage changes no stage. -/
theorem stage_eq_of_update {a : OperationId} {status : Status β}
    (h : m'.status? = update m.status? a (some status)) (hsame : m.stage a = some status.hasBegun) :
    m'.stage = m.stage := by
  rw [stage_of_update h, ← hsame, Function.update_eq_self]

/-- An exchange at which something happens is filed if the inboxes and the stages of the operations
change as the recording has it. -/
theorem Filed.hear (h : m.Filed r) {e : Exchange} {a : Happening} (ha : e.happening? = some a)
    (hmails : ∀ cut, r.Accounts cut → r.Notes a e.isLost (r.hear e) → (r.hear e).Mails m'.inbox)
    (hnumbered : ∀ id, a.brings? = some (.delivery id) → id.value.toNat < m'.nextMessage.toNat)
    (hnext : m.nextMessage.toNat ≤ m'.nextMessage.toNat)
    (hstages : ∀ x ≠ .harness, ∀ cut, r.Accounts cut → r.Notes a e.isLost (r.hear e) →
      (r.hear e).Stage x (m'.stage x)) : m'.Filed (r.hear e) := by
  obtain ⟨cut, haccounts⟩ := h.accounts
  have hnotes := haccounts.notes_hear h.sound ha
  refine ⟨(h.sound.hear e).1, haccounts.hear e, hmails cut haccounts hnotes, fun id k hk => ?_,
    fun x hx => hstages x hx cut haccounts hnotes⟩
  rcases hnotes.pending_cases hk with hbrings | hold
  · exact hnumbered id hbrings
  · exact Nat.lt_of_lt_of_le (h.unused id k hold) hnext

/-- An operation starts. -/
theorem Filed.hear_start (h : m.Filed r) {a : OperationId} (hchild : a ≠ .harness)
    (hcreated : m.stage a = some false) (hstages : m'.stage = update m.stage a (some true))
    (hinbox : m'.inbox = m.inbox) (hnext : m'.nextMessage = m.nextMessage) :
    m'.Filed (r.hear (.notice (.started a none))) := by
  have ha : Exchange.happening? (.notice (.started a none)) = some ⟨.start, a, a, none⟩ :=
    if_neg hchild
  refine h.hear ha (fun cut haccounts hnotes => ?_) nofun
    (Nat.le_of_eq (congrArg UInt64.toNat hnext.symm)) fun x hx cut haccounts hnotes => ?_
  · rw [hinbox]
    exact hnotes.mails_other haccounts h.mails nofun nofun
  · have hbefore := h.stages x hx
    rw [hstages, Function.update_apply]
    split
    · rename_i hxa
      rw [hxa, hcreated] at hbefore
      rw [hxa]
      exact hnotes.stage_start hbefore rfl rfl
    · rename_i hne
      exact hnotes.stage haccounts hbefore rfl (by simp [Happening.isStartOf, Ne.symm hne])
        fun hsource => absurd hsource.symm hne

/-- An operation that has begun creates another one. -/
theorem Filed.hear_create (h : m.Filed r) {a id : OperationId} (hother : id ≠ a)
    (hbegun : m.stage a = some true) (hfresh : m.stage id = none)
    (hstages : m'.stage = update m.stage id (some false)) (hinbox : m'.inbox = m.inbox)
    (hnext : m'.nextMessage = m.nextMessage) :
    m'.Filed (r.hear (.notice (.created a id))) := by
  have ha : Exchange.happening? (.notice (.created a id)) = some ⟨.create, a, id, none⟩ := rfl
  refine h.hear ha (fun cut haccounts hnotes => ?_) nofun
    (Nat.le_of_eq (congrArg UInt64.toNat hnext.symm)) fun x hx cut haccounts hnotes => ?_
  · rw [hinbox]
    exact hnotes.mails_other haccounts h.mails nofun nofun
  · have hbefore := h.stages x hx
    rw [hstages, Function.update_apply]
    split
    · rename_i hid
      rw [hid, hfresh] at hbefore
      rw [hid]
      exact hnotes.stage_create hbefore rfl rfl (Ne.symm hother) rfl
    · rename_i hne
      exact hnotes.stage haccounts hbefore (by simp [Happening.isCreateOf, Ne.symm hne]) rfl
        fun hsource => hsource ▸ hbegun

/-- An operation that has begun takes a step at which none is created and none starts. -/
theorem Filed.hear_act (h : m.Filed r) {e : Exchange} {a : Happening} (ha : e.happening? = some a)
    (hbegun : m.stage a.source = some true) (hcreate : a.kind ≠ .create) (hstart : a.kind ≠ .start)
    (hstages : m'.stage = m.stage)
    (hmails : ∀ cut, r.Accounts cut → r.Notes a e.isLost (r.hear e) → (r.hear e).Mails m'.inbox)
    (hnumbered : ∀ id, a.brings? = some (.delivery id) → id.value.toNat < m'.nextMessage.toNat)
    (hnext : m.nextMessage.toNat ≤ m'.nextMessage.toNat) : m'.Filed (r.hear e) := by
  refine h.hear ha hmails hnumbered hnext fun x hx cut haccounts hnotes => ?_
  rw [hstages]
  refine hnotes.stage haccounts (h.stages x hx) ?_ ?_ fun hsource => hsource ▸ hbegun
  · simp [Happening.isCreateOf, hcreate]
  · simp [Happening.isStartOf, hstart]

/-- An operation that has begun sends the next message. -/
theorem Filed.hear_send (h : m.Filed r) {message : Message} {target : OperationId}
    {delivery : Delivery} (hbegun : m.stage message.sender = some true)
    (hbound : m.nextMessage.toNat + 1 < UInt64.size) (hnumbered : message.id = ⟨m.nextMessage⟩)
    (hstages : m'.stage = m.stage) (hnext : m'.nextMessage = m.nextMessage + 1)
    (hmails : ∀ (cut : Cause → Nat → Prop) (r' : Recorder), r.Accounts cut →
      r.pending (.delivery message.id) = none →
        r.Notes ⟨.send, message.sender, target, some message.event⟩
          (Exchange.isLost (.send message.sender target message.event delivery)) r' →
          r'.Mails m'.inbox) :
    m'.Filed (r.hear (.send message.sender target message.event delivery)) := by
  have hcount : m'.nextMessage.toNat = m.nextMessage.toNat + 1 := by
    rw [hnext, UInt64.toNat_add]
    exact Nat.mod_eq_of_lt hbound
  have hfresh : r.pending (.delivery message.id) = none := by
    rw [hnumbered, Option.eq_none_iff_forall_ne_some]
    exact fun k hk => Nat.lt_irrefl _ (h.unused _ k hk)
  have ha : Exchange.happening? (.send message.sender target message.event delivery) =
      some ⟨.send, message.sender, target, some message.event⟩ := rfl
  refine h.hear_act ha hbegun nofun nofun hstages
    (fun cut haccounts hnotes => hmails cut _ haccounts hfresh hnotes) (fun id hbrings => ?_)
    (by rw [hcount]; exact Nat.le_succ _)
  obtain rfl : message.id = id := Cause.delivery.inj (Option.some.inj hbrings)
  rw [hnumbered, hcount]
  exact Nat.lt_succ_self _

/-- What is performed is filed. -/
theorem Filed.performs (h : m.Filed r) {a : OperationId} {pending : Pending β} {e : Exchange}
    (hstage : m.stage a = some (Status.parked pending).hasBegun)
    (hbound : m.nextMessage.toNat + 1 < UInt64.size) (hperforms : m.Performs a pending e m') :
    m'.Filed (r.hear e) := by
  cases hperforms with
  | starts child statuses inbox nextMessage =>
      exact h.hear_start child hstage (stage_of_update statuses) inbox nextMessage
  | @creates id name child next _ other fresh statuses inbox nextMessage =>
      have hfresh : m.stage id = none := by
        rw [stage, fresh]
        rfl
      -- the creator has begun, and it waits for the child without any other change
      have hsame : update m.stage a (some true) = m.stage :=
        (congrArg (update m.stage a) hstage.symm).trans (Function.update_eq_self a m.stage)
      have hstages : m'.stage = update (update m.stage a (some true)) id (some false) := by
        rw [stage_eq_comp, statuses, Function.comp_update, Function.comp_update]
        rfl
      rw [hsame] at hstages
      exact h.hear_create other hstage hfresh hstages inbox nextMessage
  | delivers numbered statuses inbox nextMessage sender =>
      subst sender
      refine h.hear_send hstage hbound numbered (stage_eq_of_update statuses hstage) nextMessage
        fun cut r' haccounts hfresh hnotes => ?_
      rw [inbox]
      exact hnotes.mails_deliver haccounts h.mails hfresh
  | withholds numbered statuses inbox nextMessage sender =>
      subst sender
      refine h.hear_send hstage hbound numbered (stage_eq_of_update statuses hstage) nextMessage
        fun cut r' haccounts hfresh hnotes => ?_
      rw [inbox]
      exact hnotes.mails_withhold haccounts h.mails hfresh
  | @receives message rest again next _ waiting statuses inbox nextMessage =>
      have ha : Exchange.happening? (.notice (.received a message.event)) =
          some ⟨.receive, a, a, some message.event⟩ := rfl
      refine h.hear_act ha hstage nofun nofun (stage_eq_of_update statuses hstage)
        (fun cut haccounts hnotes => ?_) nofun
        (Nat.le_of_eq (congrArg UInt64.toNat nextMessage.symm))
      rw [inbox]
      exact hnotes.mails_receive haccounts h.mails waiting

/-- In whatever way a step goes on, it is filed. -/
theorem Filed.continues (h : m.Filed r) {a : OperationId} (hown : m.OwnThreads) {thread : Thread β}
    (hthread : thread ∈ m.threads) (hbound : m.nextMessage.toNat + 1 < UInt64.size)
    {l : List Exchange} (hcontinues : m.Continues a thread l m') : m'.Filed (r.hearAll l) := by
  have hstage : m.stage thread.token.operation = some thread.status.hasBegun := by
    rw [stage, hown.status?_eq hthread]
    rfl
  cases hcontinues with
  | @registers body starting other =>
      rw [starting] at hstage
      have hset : (m.setStatus thread.token (.parked (.start body))).status? =
          update m.status? thread.token.operation (some (.parked (.start body))) :=
        hown.status?_eq_update hthread rfl
      exact h.congr rfl rfl fun x _ => congrFun (stage_eq_of_update hset hstage) x
  | rests held silent statuses inbox nextMessage begun begins free =>
      rw [held] at hstage
      refine (h.silent silent).congr inbox nextMessage fun x hx => ?_
      rcases begun with begun | hharness
      · rw [begun, ← begins] at hstage
        exact congrFun (stage_eq_of_update statuses hstage) x
      · -- the start of the harness is not filed
        rw [stage_of_update statuses, Function.update_of_ne (hharness ▸ hx)]
  | @chooses l choice _ body held silent statuses inbox nextMessage begun =>
      rw [held, begun] at hstage
      -- a value is neither a send nor a receive, so that the mails stay as they are
      have ha : Exchange.happening? (.notice (.chosen a choice)) =
          some ⟨.ofChoice choice, a, a, none⟩ := rfl
      have hkind : ∀ kind, (∀ b, kind ≠ .boolean b) → (∀ n, kind ≠ .integer n) →
          StepKind.ofChoice choice ≠ kind := by
        intro kind hboolean hinteger
        cases choice with
        | boolean b => exact (hboolean b).symm
        | integer n => exact (hinteger n).symm
      rw [Recorder.hearAll_append]
      refine (h.silent silent).hear_act ha hstage (hkind _ nofun nofun) (hkind _ nofun nofun)
        (stage_eq_of_update statuses hstage) (fun cut haccounts hnotes => ?_) (fun id hbrings => ?_)
        (Nat.le_of_eq (congrArg UInt64.toNat nextMessage.symm))
      · rw [inbox]
        exact hnotes.mails_other haccounts (h.silent silent).mails (hkind _ nofun nofun)
          (hkind _ nofun nofun)
      · exact absurd (Happening.brings?_eq_delivery_iff.mp hbrings).1 (hkind _ nofun nofun)
  | @performs l e m₀ _ pending held silent statuses inbox nextMessage begun performs =>
      rw [held, ← begun] at hstage
      -- nothing is filed between the scheduling point and what is performed there
      have hcome : m₀.stage = m.stage := stage_eq_of_update statuses hstage
      have hfiled : m₀.Filed (r.hearAll l) :=
        (h.silent silent).congr inbox nextMessage fun x _ => congrFun hcome x
      rw [← hcome] at hstage
      rw [← nextMessage] at hbound
      rw [Recorder.hearAll_append]
      exact hfiled.performs hstage hbound performs

/-- A way in which a step goes on takes at most one identity of a message. -/
theorem Continues.nextMessage {a : OperationId} {thread : Thread β} {l : List Exchange}
    (h : m.Continues a thread l m') : m'.nextMessage.toNat ≤ m.nextMessage.toNat + 1 := by
  have hcases : m'.nextMessage = m.nextMessage ∨ m'.nextMessage = m.nextMessage + 1 := by
    cases h with
    | registers starting other => exact Or.inl rfl
    | rests held silent statuses inbox nextMessage => exact Or.inl nextMessage
    | chooses held silent statuses inbox nextMessage => exact Or.inl nextMessage
    | performs held silent statuses inbox before begun performs =>
        rw [← before]
        cases performs with
        | starts child statuses inbox nextMessage => exact Or.inl nextMessage
        | creates other fresh statuses inbox nextMessage => exact Or.inl nextMessage
        | delivers numbered statuses inbox nextMessage => exact Or.inr nextMessage
        | withholds numbered statuses inbox nextMessage => exact Or.inr nextMessage
        | receives waiting statuses inbox nextMessage => exact Or.inl nextMessage
  rcases hcases with heq | heq
  · rw [heq]
    exact Nat.le_succ _
  · -- at the end of the 64 bits the next identity is smaller
    rw [heq, UInt64.toNat_add]
    exact Nat.mod_le _ _

end Filed

/-! ## Runs -/

section Runs

variable [Strategy σ] [Records σ]

/-- After `n` steps the operations take turns and what they did is filed, or the run has stopped and
the tree is what was filed when it did. -/
inductive Files (n : Nat) (m : Machine σ β) : Prop
  | goesOn {turn : Turn} (turns : m.At turn)
      (filed : m.Filed (Records.recorder m.scheduler.strategy))
      (numbers : m.nextMessage.toNat ≤ n + 1) : Files n m
  | ended {before : Machine σ β} {r : Recorder} (stopped : m.scheduler.running = false)
      (filed : before.Filed r) (tree : (Records.recorder m.scheduler.strategy).tree = r.tree) :
      Files n m

/-- Every step keeps the files. -/
theorem Files.stepThread {p : Program β} {n : Nat} {m m' : Machine σ β} (h : m.Files n)
    (hwrap : m.nextOperation.toNat + 1 < UInt64.size) (hbound : n + 2 < UInt64.size)
    {thread : Thread β} (hthread : thread ∈ m.threads) (hstep : stepThread p m thread = some m') :
    m'.Files (n + 1) := by
  have hrecorder := Records.hearsAll (follows_stepThread hstep)
  cases h with
  | goesOn turns filed numbers =>
      obtain ⟨a, hcontrol⟩ := turns.inControl
      rcases at_stepThread turns hwrap hthread hstep with ⟨turn', -, turns'⟩ | ⟨-, hstops⟩
      · obtain ⟨b, hcontrol'⟩ := turns'.inControl
        have hcontinues := turns.continues hcontrol hwrap hthread hstep hcontrol'.running
        have hfiled := filed.continues hcontrol.threads hthread (by omega) hcontinues
        rw [← hrecorder] at hfiled
        have hnext := hcontinues.nextMessage
        exact .goesOn turns' hfiled (by omega)
      · -- the step that stops the run adds nothing to the tree
        refine .ended hstops.isOver filed ?_
        rw [hrecorder]
        exact Recorder.tree_hearAll_of_told hstops.ahead.1 _
  | ended stopped filed tree =>
      obtain ⟨hsilent, hover⟩ := (makes_stepThread hstep).passage.silent stopped
      rw [hsilent] at hrecorder
      exact .ended hover filed ((congrArg Recorder.tree hrecorder).trans tree)

/-- Every state that is reached by any interleaving has its files. -/
theorem Reaches.files {p : Program β} {n : Nat} {m m' : Machine σ β} (h : Reaches p n m m')
    (hwrap : m.nextOperation.toNat + n < UInt64.size) (hbound : n + 1 < UInt64.size)
    (hm : m.Files 0) : m'.Files n := by
  induction h with
  | refl => exact hm
  | step reaches mem hstep ih =>
      have hnext := reaches.nextOperation
      exact (ih (by omega) (by omega) hm).stepThread (by omega) hbound mem hstep

/-- A run with an empty recording starts with its files. -/
theorem files_start (p : Program β) (i : Nat) (c : Configuration) {s : σ}
    (hs : Records.recorder s = .empty) : (start p (.new i c s)).Files 0 := by
  have hfiled : (start p (.new i c s)).Filed .empty := by
    refine ⟨Recorder.sound_empty, ⟨_, Recorder.accounts_empty⟩, Recorder.mails_empty,
      fun id k hk => ?_, fun x hx => ?_⟩
    · cases hk
    · rw [stage, status?_start, if_neg hx]
      exact Recorder.stage_empty hx
  rw [← hs] at hfiled
  exact .goesOn (at_start p i c s) hfiled (Nat.le_refl 1)

end Runs

end Machine

/-- Messages arrive in order. In whatever way the threads of a program are interleaved and whatever
its strategy answers, the tree that has been recorded up to any state which the run reaches before
the identities run out shows that every message is received at most once, in the order of the
deliveries, that a message which is withheld is not received, and that operations start once they
have been created. -/
theorem Program.messages_arrive_in_order [Strategy σ] (p : Program β) (c : Configuration) (i : Nat)
    (s : Recorded σ) (hs : s.recorder = .empty) {n : Nat} {m : Machine (Recorded σ) β}
    (h : Machine.Reaches p n (.start p (.new i c s)) m) (hn : n + 1 < UInt64.size) :
    m.recordedTree.InOrder := by
  have hfiles : m.Files n := by
    refine h.files ?_ hn (Machine.files_start p i c hs)
    show 1 + n < UInt64.size
    omega
  obtain ⟨before, r, hfiled, htree⟩ : ∃ (before : Machine (Recorded σ) β) (r : Recorder),
      before.Filed r ∧ (Records.recorder m.scheduler.strategy).tree = r.tree := by
    cases hfiles with
    | goesOn turns filed => exact ⟨m, _, filed, rfl⟩
    | ended stopped filed tree => exact ⟨_, _, filed, tree⟩
  obtain ⟨hsteps, hwithheld⟩ := Recorder.same_recordEnd (Records.recorder m.scheduler.strategy)
    (m.scheduler.bug.map (·.kind))
  exact hfiled.inOrder.congr (hsteps.trans (congrArg EventTree.steps htree))
    (hwithheld.trans (congrArg EventTree.withheld htree))

/-- A harness that sends to an operation before and after it creates it. -/
def postman : Program Nat where
  act
    | ⟨0⟩, 0 => .send ⟨1⟩ "first" 7 1
    | ⟨0⟩, 1 => .send ⟨1⟩ "lost" 8 2
    | ⟨0⟩, 2 => .create "receiver" 0 fun _ => 3
    | ⟨0⟩, 3 => .send ⟨1⟩ "last" 9 4
    | ⟨0⟩, _ => .finish
    | _, body => .receive fun _ => body
  main := 0

/-- Of three messages the second one is withheld, and when the run is cut off the first one has been
received. -/
theorem Program.messages_arrive_in_order_of_postman :
    let start := Machine.start postman
      (.new 0 {} (Recorded.ofStrategy { firstEnabled with withheld := ["lost"] }))
    let m := Machine.runFor postman 10 start
    (∃ n, Machine.Reaches postman n start m ∧ n + 1 < UInt64.size) ∧
      m.recordedTree.deliveries ⟨1⟩ = [1, 4] ∧ m.recordedTree.receipts ⟨1⟩ = [6] ∧
        m.recordedTree.withheld = [2] ∧ m.recordedTree.InOrder := by
  intro start m
  have htree : m.recordedTree.deliveries ⟨1⟩ = [1, 4] ∧ m.recordedTree.receipts ⟨1⟩ = [6] ∧
      m.recordedTree.withheld = [2] := by
    decide +kernel
  obtain ⟨hdeliveries, hreceipts, hwithheld⟩ := htree
  obtain ⟨n, hreach, hn⟩ : ∃ n, Machine.Reaches postman n start m ∧ n + 1 < UInt64.size :=
    Machine.exists_reaches_lt postman start (by decide)
  have horder := Program.messages_arrive_in_order postman {} 0 _ rfl hreach hn
  exact ⟨⟨n, hreach, hn⟩, hdeliveries, hreceipts, hwithheld, horder⟩

end Interleave
