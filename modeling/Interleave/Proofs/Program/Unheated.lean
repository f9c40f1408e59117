import Interleave.Proofs.Program.Sending
import Interleave.Proofs.Scheduler.Unheated

/-!
# Runs that differ in fairness

A step does the same under the unfair strategy, unless a monitor overheats or the run is over in any
case (`Machine.step?_unheated`). So a strategy that follows a run in all but fairness makes the same
run up to the temperatures, as long as none of its monitors overheats
(`Machine.matches_or_breaksOff`). Where one does, the run is over (`Machine.BreaksOff.ends`).
-/

namespace Interleave

variable {σ τ β : Type}

/-! ## Dialogues with another fairness -/

theorem Turn.Path.withFairness {first last : Turn} {l : List Exchange} (h : Path first l last)
    (fair : Bool) : Path first (l.map (·.withFairness fair)) last := by
  induction h with
  | nil => exact .nil
  | @cons first second last e l goes _ ih =>
      refine .cons ?_ ih
      cases e with
      | fairness told =>
          cases goes
          exact .fairness
      | _ => exact goes

theorem Recorder.hearAll_withFairness (fair : Bool) (l : List Exchange) (r : Recorder) :
    r.hearAll (l.map (·.withFairness fair)) = r.hearAll l := by
  induction l generalizing r with
  | nil => rfl
  | cons e l ih =>
      have hhear : r.hear (e.withFairness fair) = r.hear e := by
        cases e <;> rfl
      rw [List.map_cons, hearAll_cons, hearAll_cons, hhear]
      exact ih (r.hear e)

theorem requests_withFairness (fair : Bool) (l : List Exchange) :
    requests (l.map (·.withFairness fair)) = requests l := by
  unfold requests
  rw [List.countP_map]
  refine List.countP_congr fun e _ => ?_
  cases e <;> rfl

namespace Machine

/-- The same state of a run under the unfair strategy. -/
def unheated (m : Machine σ β) : Machine (Unfair σ) β where
  scheduler := m.scheduler.unheated
  threads := m.threads
  inboxes := m.inboxes
  nextOperation := m.nextOperation
  nextMessage := m.nextMessage
  log := m.log

theorem approach_unheated {m m' : Machine σ β} {t : Token} {body : β} {action : Action β}
    {pending : Pending β} (h : m.approach t body action = some (m', pending)) :
    m.unheated.approach t body action = some (m'.unheated, pending) := by
  have hinbox : m.unheated.inbox t.operation = m.inbox t.operation := rfl
  cases action <;> cases h <;> try rfl
  unfold approach
  dsimp only
  rw [hinbox]
  split <;> rfl

theorem bug_approach {m m' : Machine σ β} {t : Token} {body : β} {action : Action β}
    {pending : Pending β} (h : m.approach t body action = some (m', pending)) :
    m'.scheduler.bug = m.scheduler.bug := by
  cases action <;> cases h <;> try rfl
  split <;> rfl

variable [Strategy σ]

/-- How a step with a dialogue goes under the unfair strategy: in the same way, unless a monitor
overheats or the run is over in any case. -/
inductive Unheats (m : Machine σ β) (l : List Exchange) (m' : Machine σ β) :
    List Exchange → Machine (Unfair σ) β → Prop
  | same : Unheats m l m' (l.map (·.withFairness false)) m'.unheated
  | overheated {l' : List Exchange} {n : Machine (Unfair σ) β}
      (halts : m'.scheduler.running = false)
      (bug : m.scheduler.bug = none → m'.scheduler.IsOverheated) : Unheats m l m' l' n
  | halted {l' : List Exchange} {n : Machine (Unfair σ) β} (halts : m'.scheduler.running = false)
      (halts' : n.scheduler.running = false) : Unheats m l m' l' n

omit [Strategy σ] in
theorem Unheats.of_bug {m m₁ m' : Machine σ β} {l l' : List Exchange}
    {n : Machine (Unfair σ) β} (h : m₁.Unheats l m' l' n)
    (hbug : m₁.scheduler.bug = m.scheduler.bug) : m.Unheats l m' l' n := by
  cases h with
  | same => exact .same
  | overheated halts bug => exact .overheated halts fun hnone => bug (hbug.trans hnone)
  | halted halts halts' => exact .halted halts halts'

/-! ## Single steps -/

theorem performSaid_unheated (m : Machine σ β) (t : Token) (pending : Pending β) :
    m.unheated.performSaid t pending = (m.performSaid t pending).map (·.withFairness false) := by
  cases pending with
  | start body =>
      simp only [performSaid]
      split
      · rfl
      · exact m.scheduler.noticeSaid_unheated _
  | create id name child next => exact m.scheduler.noticeSaid_unheated _
  | send target name value next => exact m.scheduler.sendSaid_unheated _ _ _
  | receive again next =>
      have hinbox : m.unheated.inbox t.operation = m.inbox t.operation := rfl
      simp only [performSaid, hinbox]
      split
      · rfl
      · exact m.scheduler.noticeSaid_unheated _
  | stop => rfl

theorem perform_unheated (m : Machine σ β) (t : Token) (pending : Pending β) :
    m.unheated.perform t pending = (m.perform t pending).unheated := by
  cases pending with
  | start body =>
      simp only [perform]
      split
      · rfl
      · exact congrArg (fun s => { (m.setStatus t (.running body)).unheated with scheduler := s })
          (m.scheduler.notify_unheated _)
  | create id name child next =>
      have hcreate : m.unheated.scheduler.create id name = _ := m.scheduler.create_unheated id name
      simp only [perform, performCreate, hcreate, Scheduler.notify_unheated]
      rfl
  | send target name value next =>
      have hsend : m.unheated.scheduler.send t.operation target _ = _ :=
        m.scheduler.send_unheated t.operation target
          (Message.mk ⟨m.nextMessage⟩ t.operation name value).event
      have hmessage : m.unheated.nextMessage = m.nextMessage := rfl
      simp only [perform, performSend, hmessage, hsend]
      split <;> rfl
  | receive again next =>
      have hinbox : m.unheated.inbox t.operation = m.inbox t.operation := rfl
      simp only [perform, performReceive, hinbox]
      split
      · rfl
      · rename_i message rest hmessages
        exact congrArg (fun s => setStatus { (m.setInbox t.operation rest).unheated with
          scheduler := s } t (.running (next message))) (m.scheduler.notify_unheated _)
  | stop => rfl

theorem suspend_unheated (m : Machine σ β) (t : Token) (pending : Pending β)
    (r : Reply × Scheduler σ) :
    m.unheated.suspend t pending (r.1, r.2.unheated) = (m.suspend t pending r).unheated ∧
      m.unheated.suspendSaid t pending (r.1, r.2.unheated) =
        (m.suspendSaid t pending r).map (·.withFairness false) := by
  obtain ⟨reply, s⟩ := r
  cases reply with
  | proceed =>
      exact ⟨perform_unheated { m with scheduler := s } t pending,
        performSaid_unheated { m with scheduler := s } t pending⟩
  | canceled => exact ⟨rfl, rfl⟩
  | parked => exact ⟨rfl, rfl⟩

/-- A thread that goes on with the result of a suspension point ends up where the run is over if it
is so then. -/
theorem running_suspend_of_over {m : Machine σ β} {t : Token} {pending : Pending β}
    {r : Reply × Scheduler σ} (h : r.2.running = false) :
    (m.suspend t pending r).scheduler.running = false :=
  ((makes_suspend m t pending r).passage.silent h).2

theorem arrive_unheated (m : Machine σ β) (t : Token) (pending : Pending β) :
    m.Unheats (m.arriveSaid t pending) (m.arrive t pending) (m.unheated.arriveSaid t pending)
      (m.unheated.arrive t pending) := by
  have hyield := m.scheduler.yield_unheated t (pending.declared t.operation).kind
    (pending.declared t.operation).targetKind (pending.declared t.operation).target
  have hsaid : m.unheated.scheduler.yieldSaid t (pending.declared t.operation) = _ :=
    m.scheduler.yieldSaid_unheated t (pending.declared t.operation)
  rw [arriveSaid_eq, arriveSaid_eq, arrive_eq, arrive_eq, hsaid]
  change m.scheduler.Unheats (m.declare t pending) (m.unheated.declare t pending) at hyield
  generalize m.declare t pending = r, m.unheated.declare t pending = r' at hyield ⊢
  cases hyield with
  | same =>
      obtain ⟨hsuspend, hsuspended⟩ := suspend_unheated m t pending r
      rw [hsuspend, hsuspended, ← List.map_append]
      exact .same
  | overheated halts bug =>
      refine .overheated (running_suspend_of_over halts) fun hbug => ?_
      obtain ⟨monitor, hmonitor⟩ := bug hbug
      exact ⟨monitor, (makes_suspend m t pending r).passage.bug _ hmonitor⟩
  | halted halts halts' =>
      exact .halted (running_suspend_of_over halts) (running_suspend_of_over halts')

omit [Strategy σ] in
/-- A thread that goes on with a value does so under the unfair strategy. -/
theorem continueWith_unheated {α : Type} (m : Machine σ β) (t : Token) (next : α → β)
    {l : List Exchange} {r : Option α × Scheduler σ} {r' : Option α × Scheduler (Unfair σ)}
    (h : m.scheduler.Unheats r r') :
    m.Unheats l (m.continueWith t next r) (l.map (·.withFairness false))
      (m.unheated.continueWith t next r') := by
  cases h with
  | same =>
      have hsame : m.unheated.continueWith t next (r.1, r.2.unheated) =
          (m.continueWith t next r).unheated := by
        obtain ⟨value, s⟩ := r
        cases value <;> rfl
      rw [hsame]
      exact .same
  | overheated halts bug =>
      refine .overheated ?_ ?_
      · rw [scheduler_continueWith]
        exact halts
      · rw [scheduler_continueWith]
        exact bug
  | halted halts halts' =>
      refine .halted ?_ ?_
      · rw [scheduler_continueWith]
        exact halts
      · rw [scheduler_continueWith]
        exact halts'

theorem execute_unheated (m : Machine σ β) (t : Token) (body : β) (action : Action β) :
    m.Unheats (m.executeSaid t body action) (m.execute t body action)
      (m.unheated.executeSaid t body action) (m.unheated.execute t body action) := by
  cases happ : m.approach t body action with
  | some arrival =>
      obtain ⟨m₁, pending⟩ := arrival
      have happ' := approach_unheated happ
      rw [execute_of_approach happ, execute_of_approach happ']
      simp only [executeSaid, happ, happ']
      exact (arrive_unheated m₁ t pending).of_bug (bug_approach happ)
  | none =>
      cases action with
      | boolean fairness next =>
          show m.Unheats (m.scheduler.booleanSaid t 2 fairness) _
            (m.scheduler.unheated.booleanSaid t 2 fairness) _
          rw [Scheduler.booleanSaid_unheated]
          exact continueWith_unheated m t next (m.scheduler.nextBoolean_unheated t 2 fairness)
      | integer max next =>
          show m.Unheats (m.scheduler.integerSaid t max) _
            (m.scheduler.unheated.integerSaid t max) _
          rw [Scheduler.integerSaid_unheated]
          exact continueWith_unheated m t next (m.scheduler.nextInteger_unheated t max)
      | monitor name hot next =>
          have hsaid := m.scheduler.noticeSaid_unheated (.monitored name t.operation hot)
          have hnotify := m.scheduler.notify_unheated (.monitored name t.operation hot)
          show m.Unheats _ _ (m.unheated.scheduler.noticeSaid _)
            ({ m.unheated with scheduler := m.scheduler.unheated.notify _ }.setStatus t _)
          rw [show m.unheated.scheduler.noticeSaid _ = _ from hsaid, hnotify]
          exact .same
      | fail _ | report _ _ | log _ _ | quiet _ => exact .same
      | finish | create _ _ _ | send _ _ _ _ | receive _ => cases happ

theorem stepThread_unheated {p : Program β} {m m' : Machine σ β} {thread : Thread β}
    (h : stepThread p m thread = some m') :
    ∃ n, stepThread p m.unheated thread = some n ∧
      m.Unheats (threadSaid p m thread) m' (threadSaid p m.unheated thread) n := by
  obtain ⟨t, status⟩ := thread
  have hslot : ∀ id, m.unheated.scheduler.slot? id = m.scheduler.slot? id := fun _ => rfl
  unfold stepThread at h ⊢
  unfold threadSaid
  cases status with
  | starting body =>
      cases h
      have hstart : m.unheated.scheduler.start t = _ := m.scheduler.start_unheated t
      obtain ⟨hsuspend, hsaid⟩ := suspend_unheated m t (.start body) (m.scheduler.start t)
      refine ⟨_, rfl, ?_⟩
      simp only [hstart, hsuspend, hsaid]
      exact .same
  | running body =>
      cases h
      exact ⟨_, rfl, execute_unheated m t body (p.act t.operation body)⟩
  | parked pending =>
      simp only [hslot] at h ⊢
      split at h
      · cases h
        rename_i hwake
        refine ⟨_, rfl, ?_⟩
        simp only [hwake, perform_unheated, performSaid_unheated]
        exact .same
      · cases h
        rename_i hwake
        refine ⟨_, rfl, ?_⟩
        simp only [hwake]
        exact .same
      · cases h
  | awaiting child next =>
      simp only [hslot] at h ⊢
      split at h
      · cases h
        rename_i hready
        exact ⟨_, if_pos hready, .same⟩
      · cases h
  | exited => cases h

/-- The unfair strategy keeps no thread from a step. -/
theorem isSome_stepThread_unheated (p : Program β) (m : Machine σ β) (thread : Thread β) :
    (stepThread p m.unheated thread).isSome = (stepThread p m thread).isSome := by
  obtain ⟨t, status⟩ := thread
  have hslot : ∀ id, m.unheated.scheduler.slot? id = m.scheduler.slot? id := fun _ => rfl
  unfold stepThread
  cases status with
  | parked pending =>
      simp only [hslot]
      split <;> rfl
  | awaiting child next =>
      simp only [hslot]
      split <;> rfl
  | _ => rfl

/-- One step under the unfair strategy. -/
theorem step?_unheated {p : Program β} {m m' : Machine σ β} (h : step? p m = some m') :
    ∃ n, step? p m.unheated = some n ∧
      m.Unheats (stepSaid p m) m' (stepSaid p m.unheated) n := by
  obtain ⟨before, thread, after, hthreads, hthread, hbefore, hsaid⟩ := exists_thread_of_step? h
  obtain ⟨n, hnext, hunheats⟩ := stepThread_unheated hthread
  have hfind : stepSaid p m.unheated = threadSaid p m.unheated thread := by
    have hfirst : m.unheated.threads.find? (fun other => (stepThread p m.unheated other).isSome) =
        some thread := by
      refine List.find?_eq_some_iff_append.mpr ⟨by rw [hnext]; rfl, before, after, hthreads, ?_⟩
      intro other hother
      rw [isSome_stepThread_unheated, hbefore other hother]
      rfl
    simp only [stepSaid, hfirst]
  refine ⟨n, step?_of_firstReady ⟨before, after, hthreads, fun other hother => ?_⟩ hnext, ?_⟩
  · rw [← Option.isNone_iff_eq_none, ← Option.not_isSome, isSome_stepThread_unheated,
      hbefore other hother]
    rfl
  · rw [hsaid, hfind]
    exact hunheats

theorem step?_unheated_eq_none {p : Program β} {m : Machine σ β} (h : step? p m = none) :
    step? p m.unheated = none := by
  refine List.findSome?_eq_none_iff.mpr fun thread hthread => ?_
  rw [← Option.isNone_iff_eq_none, ← Option.not_isSome, isSome_stepThread_unheated,
    List.findSome?_eq_none_iff.mp h thread hthread]
  rfl

/-- A step after which the run goes on is the same under the unfair strategy. -/
theorem step?_unheated_of_running {p : Program β} {m m' : Machine σ β} (h : step? p m = some m')
    (hrunning : m'.scheduler.running = true) :
    step? p m.unheated = some m'.unheated ∧
      stepSaid p m.unheated = (stepSaid p m).map (·.withFairness false) := by
  obtain ⟨n, hnext, hunheats⟩ := step?_unheated h
  generalize stepSaid p m.unheated = l at hunheats
  cases hunheats with
  | same => exact ⟨hnext, rfl⟩
  | overheated halts | halted halts => exact absurd hrunning (Bool.eq_false_iff.mp halts)

/-! ## Whole runs -/

/-- A monitor overheats in the next step. -/
def OverheatsNext (p : Program β) (m : Machine σ β) : Prop :=
  ∃ m', step? p m = some m' ∧ m'.scheduler.running = false ∧
    (m.scheduler.bug = none → m'.scheduler.IsOverheated)

/-- A step of the unfair strategy after which the run goes on is made under the other one as well,
unless a monitor overheats in it. -/
theorem exists_step?_of_unheated {p : Program β} {m : Machine σ β} {n : Machine (Unfair σ) β}
    (h : step? p m.unheated = some n) (hrunning : n.scheduler.running = true) :
    (∃ m', step? p m = some m' ∧ m'.unheated = n) ∨ OverheatsNext p m := by
  cases hstep : step? p m with
  | none =>
      rw [step?_unheated_eq_none hstep] at h
      cases h
  | some m' =>
      obtain ⟨n', hnext, hunheats⟩ := step?_unheated hstep
      rw [h] at hnext
      cases hnext
      generalize stepSaid p m.unheated = l at hunheats
      cases hunheats with
      | same => exact Or.inl ⟨m', rfl, rfl⟩
      | overheated halts bug => exact Or.inr ⟨m', hstep, halts, bug⟩
      | halted halts halts' => exact absurd hrunning (Bool.eq_false_iff.mp halts')

/-- Once a run is over, it stays so. -/
theorem running_of_le {p : Program β} {m : Machine σ β} {k n : Nat}
    (h : (runFor p n m).scheduler.running = true) (hle : k ≤ n) :
    (runFor p k m).scheduler.running = true := by
  rw [← Nat.add_sub_of_le hle, runFor_add] at h
  by_contra hover
  rw [((passage_runFor p (n - k) (runFor p k m)).silent (Bool.eq_false_iff.mpr hover)).2] at h
  cases h

/-- A run goes in the same way under the unfair strategy, unless a monitor overheats or it is over
in any case. -/
theorem runFor_unheated (p : Program β) (n : Nat) (m : Machine σ β) :
    (runFor p n m.unheated = (runFor p n m).unheated ∧
        runSaid p n m.unheated = (runSaid p n m).map (·.withFairness false)) ∨
      (∃ k < n, runFor p k m.unheated = (runFor p k m).unheated ∧
        OverheatsNext p (runFor p k m)) ∨
      ((runFor p n m).scheduler.running = false ∧
        (runFor p n m.unheated).scheduler.running = false) := by
  induction n generalizing m with
  | zero => exact Or.inl ⟨rfl, rfl⟩
  | succ n ih =>
      cases hstep : step? p m with
      | none =>
          have hstep' := step?_unheated_eq_none hstep
          rw [runFor_of_ended hstep, runFor_of_ended hstep', runSaid_of_ended hstep,
            runSaid_of_ended hstep']
          exact Or.inl ⟨rfl, rfl⟩
      | some m₁ =>
          obtain ⟨n₁, hnext, hunheats⟩ := step?_unheated hstep
          rw [runFor_succ_of_step hstep, runFor_succ_of_step hnext, runSaid_succ_of_step hstep,
            runSaid_succ_of_step hnext]
          generalize stepSaid p m.unheated = l at hunheats ⊢
          cases hunheats with
          | same =>
              rcases ih m₁ with ⟨hsame, hsaid⟩ | ⟨k, hk, hsame, hoverheats⟩ | hover
              · exact Or.inl ⟨hsame, by rw [hsaid, List.map_append]⟩
              · refine Or.inr (Or.inl ⟨k + 1, Nat.succ_lt_succ hk, ?_, ?_⟩)
                · rw [runFor_succ_of_step hstep, runFor_succ_of_step hnext]
                  exact hsame
                · rw [runFor_succ_of_step hstep]
                  exact hoverheats
              · exact Or.inr (Or.inr hover)
          | overheated halts bug =>
              exact Or.inr (Or.inl ⟨0, Nat.succ_pos n, rfl, m₁, hstep, halts, bug⟩)
          | halted halts halts' =>
              exact Or.inr (Or.inr ⟨((passage_runFor p n m₁).silent halts).2,
                ((passage_runFor p n n₁).silent halts').2⟩)

/-- No monitor has overheated in a run that is not over. -/
theorem runFor_unheated_of_running {p : Program β} {n : Nat} {m : Machine σ β}
    (h : (runFor p n m).scheduler.running = true) :
    runFor p n m.unheated = (runFor p n m).unheated ∧
      runSaid p n m.unheated = (runSaid p n m).map (·.withFairness false) := by
  rcases runFor_unheated p n m with hsame | ⟨k, hk, -, m', hstep, hover, -⟩ | ⟨hover, -⟩
  · exact hsame
  · have hnext : (runFor p (k + 1) m).scheduler.running = true := running_of_le h hk
    rw [runFor_add, runFor_succ_of_step hstep] at hnext
    exact absurd hnext (Bool.eq_false_iff.mp hover)
  · rw [h] at hover
    cases hover

/-! ## Runs of two strategies -/

variable [Strategy τ]

/-- The strategy of the live run, of the given fairness, follows the other run for `k` steps, and
then one of its monitors overheats. -/
structure BreaksOff (p : Program β) (fair : Bool) (m : Machine σ β) (live : Machine τ β) (k : Nat) :
    Prop where
  follows : Follows live.scheduler.strategy ((runSaid p k m).map (·.withFairness fair))
    (runFor p k live).scheduler.strategy
  running : (runFor p k live).scheduler.running = true
  overheats : OverheatsNext p (runFor p k live)

variable {p : Program β} {c : Configuration} {i : Nat} {a : σ} {fair : Bool}

/-- Both runs go in the same way where no monitor ever heats. -/
theorem exists_unheated_rehost {k : Nat}
    (hrunning : (runFor p k (start p (.new i c a))).scheduler.running = true) {q q' : τ}
    (h : Follows q ((runSaid p k (start p (.new i c a))).map (·.withFairness fair)) q') (j : Nat) :
    ∃ schedule, runFor p k (start p (.new j c q)).unheated =
      (runFor p k (start p (.new i c a))).unheated.rehost (Equiv.swap i j) ⟨q'⟩ schedule := by
  obtain ⟨hsame, hsaid⟩ := runFor_unheated_of_running hrunning
  have hunfair := h.unfair
  rw [map_withFairness_withFairness, ← hsaid] at hunfair
  have hrun : runFor p k (start p (.new j c q)).unheated =
      (runFor p k (start p (.new i c a)).unheated).rehost (Equiv.swap i j) ⟨q'⟩ _ :=
    runFor_start_rehost p k c i j hunfair
  rw [hsame] at hrun
  exact ⟨_, hrun⟩

/-- Where a monitor overheats in a run that matches the other one, the run breaks off. -/
theorem breaksOff_of_matches {k : Nat}
    (hrunning : (runFor p k (start p (.new i c a))).scheduler.running = true) {q q' : τ}
    (h : Follows q ((runSaid p k (start p (.new i c a))).map (·.withFairness fair)) q') {j : Nat}
    {schedule : Schedule} (hmatch : (runFor p k (start p (.new j c q))).unheated =
      (runFor p k (start p (.new i c a))).unheated.rehost (Equiv.swap i j) ⟨q'⟩ schedule)
    (hoverheats : OverheatsNext p (runFor p k (start p (.new j c q)))) :
    BreaksOff p fair (start p (.new i c a)) (start p (.new j c q)) k := by
  have hstrategy : (runFor p k (start p (.new j c q))).scheduler.strategy = q' :=
    congrArg (·.scheduler.strategy.inner) hmatch
  have hlive : (runFor p k (start p (.new j c q))).scheduler.running = _ :=
    congrArg (·.scheduler.running) hmatch
  refine ⟨?_, hlive.trans hrunning, hoverheats⟩
  rw [hstrategy]
  exact h

/-- A strategy that follows a run in all but fairness comes to the same state up to the
temperatures, or one of its monitors overheats before, which takes another fairness. -/
theorem matches_or_breaksOff {n : Nat}
    (hrunning : (runFor p n (start p (.new i c a))).scheduler.running = true) {q q' : τ}
    (h : Follows q ((runSaid p n (start p (.new i c a))).map (·.withFairness fair)) q') (j : Nat) :
    (∃ schedule, (runFor p n (start p (.new j c q))).unheated =
        (runFor p n (start p (.new i c a))).unheated.rehost (Equiv.swap i j) ⟨q'⟩ schedule) ∨
      (∃ told ≠ fair, .fairness told ∈ runSaid p n (start p (.new i c a))) ∧
        ∃ k < n, BreaksOff p fair (start p (.new i c a)) (start p (.new j c q)) k := by
  by_cases hfair : ∃ told ≠ fair, .fairness told ∈ runSaid p n (start p (.new i c a))
  · obtain ⟨schedule, hmatch⟩ := exists_unheated_rehost hrunning h j
    rcases runFor_unheated p n (start p (.new j c q)) with ⟨hsame, -⟩ |
      ⟨k, hk, hsame, hoverheats⟩ | ⟨-, hover⟩
    · exact Or.inl ⟨schedule, hsame.symm.trans hmatch⟩
    · -- up to the step in which the monitor overheats the two runs go in the same way
      rw [← Nat.add_sub_of_le (Nat.le_of_lt hk), runSaid_add, List.map_append] at h
      obtain ⟨q₁, hfollows, -⟩ := follows_append.mp h
      have hrunning' := running_of_le hrunning (Nat.le_of_lt hk)
      obtain ⟨schedule', hmatch'⟩ := exists_unheated_rehost hrunning' hfollows j
      exact Or.inr ⟨hfair, k, hk,
        breaksOff_of_matches hrunning' hfollows (hsame.symm.trans hmatch') hoverheats⟩
    · rw [hmatch] at hover
      exact absurd hrunning (Bool.eq_false_iff.mp hover)
  · rw [map_withFairness_of_told fun told hmem => by_contra fun hne => hfair ⟨told, hne, hmem⟩]
      at h
    exact Or.inl ⟨_, congrArg unheated (runFor_start_rehost p n c i j h)⟩

/-- A strategy that follows a run in all but fairness up to a send goes on with its own answer about
the send, or one of its monitors overheats before, which takes another fairness. -/
theorem sends_or_breaksOff {k : Nat} {m' : Machine σ β}
    (hstep : step? p (runFor p k (start p (.new i c a))) = some m')
    (hrunning : m'.scheduler.running = true) {l l' : List Exchange}
    {sender target : OperationId} {event : Event} {delivery : Delivery}
    (hsaid : stepSaid p (runFor p k (start p (.new i c a))) =
      l ++ .send sender target event delivery :: l') {q q₁ : τ}
    (h : Follows q ((runSaid p k (start p (.new i c a)) ++ l).map (·.withFairness fair)) q₁)
    (j : Nat) :
    (∃ n, step? p (runFor p k (start p (.new j c q))) = some n ∧
        n.scheduler.strategy = (Strategy.onSend q₁ sender target event).2) ∨
      (∃ told ≠ fair, .fairness told ∈ runSaid p (k + 1) (start p (.new i c a))) ∧
        ∃ k' ≤ k, BreaksOff p fair (start p (.new i c a)) (start p (.new j c q)) k' := by
  rw [List.map_append] at h
  obtain ⟨q₀, hbefore, hlast⟩ := follows_append.mp h
  by_cases hfair : ∃ told ≠ fair, .fairness told ∈ runSaid p (k + 1) (start p (.new i c a))
  · have hnext : (runFor p (k + 1) (start p (.new i c a))).scheduler.running = true := by
      rw [runFor_add, runFor_succ_of_step hstep]
      exact hrunning
    have hrunning' := running_of_le hnext (Nat.le_succ k)
    rcases matches_or_breaksOff hrunning' hbefore j with ⟨schedule, hmatch⟩ |
      ⟨-, k', hk', hbreaks⟩
    · -- the step is the same where no monitor heats, and sends there
      obtain ⟨hstep', hsaid'⟩ := step?_unheated_of_running hstep hrunning
      rw [hsaid, List.map_append, List.map_cons] at hsaid'
      have hlast' := hlast.unfair
      rw [map_withFairness_withFairness] at hlast'
      obtain ⟨n, hsends, hanswer, hgoes⟩ :=
        exists_step?_rehost_of_send hstep' hsaid' hlast' (Equiv.swap i j) schedule
      rw [← hmatch] at hsends
      -- and the live run makes it, unless a monitor overheats there
      rcases exists_step?_of_unheated hsends hgoes with ⟨m₁, hlive, rfl⟩ | hoverheats
      · exact Or.inl ⟨m₁, hlive, congrArg Unfair.inner hanswer⟩
      · exact Or.inr ⟨hfair, k, Nat.le_refl k,
          breaksOff_of_matches hrunning' hbefore hmatch hoverheats⟩
    · exact Or.inr ⟨hfair, k', Nat.le_of_lt hk', hbreaks⟩
  · -- with the same fairness the live run is the same up to the send
    have htold : ∀ told, .fairness told ∈ runSaid p (k + 1) (start p (.new i c a)) → told = fair :=
      fun told hmem => by_contra fun hne => hfair ⟨told, hne, hmem⟩
    rw [runSaid_add, runSaid_succ_of_step hstep, hsaid] at htold
    rw [map_withFairness_of_told fun told hmem => htold told (by simp [hmem])] at hbefore hlast
    obtain ⟨n, hsends, hanswer, -⟩ := exists_step?_rehost_of_send hstep hsaid hlast
      (Equiv.swap i j) (Schedule.extend #[] (runSaid p k (start p (.new i c a))))
    rw [← runFor_start_rehost p k c i j hbefore] at hsends
    exact Or.inl ⟨n, hsends, hanswer⟩

/-- A run that breaks off is over then, and makes no further step of the tree. -/
theorem BreaksOff.ends {m : Machine σ β} {j : Nat} {q : τ} {k : Nat}
    (h : BreaksOff p fair m (start p (.new j c q)) k) (hk : k < stepLimit) :
    (p.run (.new j c q)).scheduler.IsOverheated ∧
      ∃ l, Follows (runFor p k (start p (.new j c q))).scheduler.strategy l
        (p.run (.new j c q)).scheduler.strategy ∧ told l = [] := by
  obtain ⟨m', hstep, hover, hbug⟩ := h.overheats
  have hnext : runFor p (k + 1) (start p (.new j c q)) = m' := by
    rw [runFor_add, runFor_succ_of_step hstep]
    rfl
  have hwrap : (start p (.new j c q)).nextOperation.toNat + (k + 1) < UInt64.size := by
    have hlimit : 1 + stepLimit < UInt64.size := by decide
    show 1 + (k + 1) < UInt64.size
    omega
  rcases run_turns (p := p) (at_start p j c q) hwrap with ⟨turn, -, hat⟩ |
    ⟨k₁, thread, m₁, hk₁, hstops⟩
  · obtain ⟨b, hcontrol⟩ := hat.inControl
    rw [hnext] at hcontrol
    exact absurd hcontrol.running (Bool.eq_false_iff.mp hover)
  · -- the step that stops the run is that in which the monitor overheats
    obtain rfl : k₁ = k := by
      rcases Nat.lt_or_eq_of_le (Nat.le_of_lt_succ hk₁) with hlt | heq
      · exact absurd h.running (Bool.eq_false_iff.mp (hstops.rest hlt).1)
      · exact heq
    obtain ⟨b, -, hat⟩ := hstops.path
    obtain ⟨monitor, hmonitor⟩ := hbug hat.1.bug
    have hstep' := hstops.step
    rw [hstep] at hstep'
    cases hstep'
    have hrun : p.run (.new j c q) = runFor p (stepLimit - (k₁ + 1)) m' := runFor_of_step hstep hk
    rw [hrun]
    refine ⟨⟨monitor, (hstops.stops.bug_runFor _).trans hmonitor⟩,
      stepSaid p (runFor p k₁ (start p (.new j c q))), ?_, hstops.stops.ahead.1⟩
    have hrest := follows_run p (stepLimit - (k₁ + 1)) m'
    rw [((passage_runFor p (stepLimit - (k₁ + 1)) m').silent hover).1] at hrest
    rw [follows_nil.mp hrest]
    exact follows_step? hstep

end Machine

end Interleave
