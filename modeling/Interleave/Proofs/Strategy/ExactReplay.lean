import Interleave.Proofs.EventTree.Hearing
import Interleave.Proofs.Program.Passage
import Interleave.Strategy.RandomWalk
import Interleave.Strategy.Replay

/-!
# Exact replay

A recorded run that ended in order is replayed exactly from its schedule: the replay follows the
dialogue of the recorded run (`Replay.follows_of_schedule`), since the decisions logged are the
decisions answered and the end of the schedule is met only where no operation is enabled. The two
runs then agree in everything that does not belong to the strategy
(`Program.replay_repeats_run`).
-/

namespace Interleave

namespace Replay

variable {τ : Type}

/-- The replay in front of the decision of the given number, without a suffix. -/
def before (schedule : Schedule) (fair : Bool) (position : Nat) : Replay τ :=
  ⟨schedule, position, fair, none, false⟩

theorem next_before_of_lt {schedule : Schedule} {position : Nat} (fair endExpected : Bool)
    (h : position < schedule.size) :
    (before schedule fair position : Replay τ).next endExpected =
      (.decision schedule[position], before schedule fair (position + 1)) := by
  simp [next, before, h]

theorem next_before_of_end {schedule : Schedule} {position : Nat} (fair : Bool)
    (h : schedule.size ≤ position) :
    (before schedule fair position : Replay τ).next true =
      (.ended, before schedule fair position) := by
  simp [next, before, Nat.not_lt.mpr h]

/-- A request that fits the next decision is answered with it. -/
theorem answer_before {α : Type} {schedule : Schedule} {position : Nat} (fair endExpected : Bool)
    {read : Decision → Except Mismatch α} {atEnd : Except StrategyError α}
    {fromSuffix : τ → Except StrategyError α × τ} {a : α} (h : position < schedule.size)
    (hread : read schedule[position] = .ok a) :
    (before schedule fair position : Replay τ).answer endExpected read atEnd fromSuffix =
      (.ok a, before schedule fair (position + 1)) := by
  simp only [answer, next_before_of_lt fair endExpected h, hread]
  rfl

theorem find?_of_enabled {choices : List Snapshot} {id : OperationId}
    (hids : (choices.map Snapshot.id).Nodup) {op : Snapshot} (hop : op ∈ choices)
    (hid : op.id = id) : choices.find? (·.id = id) = some op := by
  induction choices with
  | nil => cases hop
  | cons other rest ih =>
      rw [List.map_cons, List.nodup_cons] at hids
      rcases List.mem_cons.mp hop with rfl | hrest
      · simp [hid]
      · have hne : other.id ≠ id := by
          intro heq
          exact hids.1 (List.mem_map.mpr ⟨op, hrest, hid.trans heq.symm⟩)
        rw [List.find?_cons_of_neg (by simpa using hne)]
        exact ih hids.2 hrest

theorem readOperation_of_enabled {choices : List Snapshot} {id : OperationId}
    (hids : (choices.map Snapshot.id).Nodup)
    (h : ∃ op ∈ choices, op.id = id ∧ op.enabled = true) :
    readOperation choices (.schedule id) = .ok (some id) := by
  obtain ⟨op, hop, hid, henabled⟩ := h
  simp [readOperation, find?_of_enabled hids hop hid, henabled]

theorem eq_of_plain_eq_schedule {d : Decision} {id : OperationId} (h : d.plain = .schedule id) :
    d = .schedule id := by
  cases d <;> simp_all [Decision.plain]

theorem eq_of_plain_eq_integer {d : Decision} {n : UInt32} (h : d.plain = .integer n) :
    d = .integer n := by
  cases d <;> simp_all [Decision.plain]

theorem readBoolean_of_plain {d : Decision} {b : Bool} (h : d.plain = .boolean b) :
    readBoolean d = .ok (some b) := by
  cases d <;> simp_all [Decision.plain, readBoolean]

/-- What a dialogue has to be for a replay to follow it. -/
structure Replayable (fair : Bool) (l : List Exchange) : Prop where
  legal : ∀ e ∈ l, e.Legal
  decided : ∀ e ∈ l, e.Decided
  unbounded : .bound true ∉ l
  fair : ∀ b, .fairness b ∈ l → b = fair
  delivered : ∀ sender target event d, .send sender target event d ∈ l → d = .deliver
  distinct : ∀ choices current answer, .operation choices current answer ∈ l →
    (choices.map Snapshot.id).Nodup
  declined : ∀ before e after, l = before ++ e :: after → e.isDeclined → verdicts after = []

theorem Replayable.tail {fair : Bool} {e : Exchange} {l : List Exchange}
    (h : Replayable fair (e :: l)) : Replayable fair l where
  legal e' he' := h.legal e' (List.mem_cons_of_mem e he')
  decided e' he' := h.decided e' (List.mem_cons_of_mem e he')
  unbounded hb := h.unbounded (List.mem_cons_of_mem e hb)
  fair b hb := h.fair b (List.mem_cons_of_mem e hb)
  delivered sender target event d hd :=
    h.delivered sender target event d (List.mem_cons_of_mem e hd)
  distinct choices current answer hc :=
    h.distinct choices current answer (List.mem_cons_of_mem e hc)
  declined before e' after hl := h.declined (e :: before) e' after (by rw [hl]; rfl)

/-- The decision in front of a replay whose remaining decisions are the given ones. -/
theorem decision_of_drop {schedule : Schedule} {position : Nat} {d : Decision}
    {ds : List Decision} (h : (schedule.toList.drop position).map Decision.plain = d :: ds) :
    ∃ hlt : position < schedule.size, schedule[position].plain = d ∧
      (schedule.toList.drop (position + 1)).map Decision.plain = ds := by
  have hlt : position < schedule.size := by
    by_contra hge
    have hlen : schedule.toList.length ≤ position := by simpa using Nat.le_of_not_lt hge
    rw [List.drop_eq_nil_of_le hlen] at h
    cases h
  refine ⟨hlt, ?_⟩
  have hlen : position < schedule.toList.length := by simpa using hlt
  rw [List.drop_eq_getElem_cons hlen, List.map_cons] at h
  obtain ⟨hd, hds⟩ := List.cons.inj h
  exact ⟨by simpa using hd, hds⟩

theorem length_verdicts_cons {e : Exchange} {l : List Exchange} {d : Decision} {position : Nat}
    (h : e.verdict? = some d) :
    position + (verdicts (e :: l)).length = position + 1 + (verdicts l).length := by
  simp only [verdicts, List.filterMap_cons, h, List.length_cons]
  omega

variable [Strategy τ]

/-- A replay follows every dialogue whose decisions are those of its schedule. -/
theorem follows_before {schedule : Schedule} {fair : Bool} {position : Nat} {l : List Exchange}
    (h : Replayable fair l)
    (hv : (schedule.toList.drop position).map Decision.plain = verdicts l) :
    Follows (before schedule fair position : Replay τ) l
      (before schedule fair (position + (verdicts l).length)) := by
  induction l generalizing position with
  | nil => rfl
  | cons e l ih =>
      have hmem : e ∈ e :: l := List.mem_cons_self
      cases e with
      | bound reached =>
          have hreached : reached = false := by
            cases reached with
            | false => rfl
            | true => exact absurd hmem h.unbounded
          exact ⟨_, ⟨by rw [hreached]; rfl, rfl⟩, ih h.tail hv⟩
      | fairness b => exact ⟨_, ⟨(h.fair b hmem).symm, rfl⟩, ih h.tail hv⟩
      | notice n => exact ⟨_, rfl, ih h.tail hv⟩
      | send sender target event delivery =>
          refine ⟨_, ?_, ih h.tail hv⟩
          rw [h.delivered sender target event delivery hmem]
          rfl
      | logged d => exact ⟨_, rfl, ih h.tail hv⟩
      | operation choices current answer =>
          obtain ⟨id?, rfl, hlegal⟩ := h.legal _ hmem
          cases id? with
          | some id =>
              have hv : _ = Decision.schedule id :: verdicts l := hv
              obtain ⟨hlt, hplain, hrest⟩ := decision_of_drop hv
              have hread : readOperation choices schedule[position] = .ok (some id) := by
                rw [eq_of_plain_eq_schedule hplain]
                exact readOperation_of_enabled (h.distinct _ _ _ hmem) (hlegal id rfl)
              refine ⟨_, answer_before fair _ hlt hread, ?_⟩
              rw [length_verdicts_cons rfl]
              exact ih h.tail hrest
          | none =>
              -- nothing is enabled and no decision is left
              have hnone : verdicts l = [] := h.declined [] _ l rfl rfl
              have hv : (schedule.toList.drop position).map Decision.plain = verdicts l := hv
              have hend : schedule.size ≤ position := by
                rw [hnone, List.map_eq_nil_iff, List.drop_eq_nil_iff] at hv
                simpa using hv
              have hdisabled : (!choices.any (·.enabled)) = true := by
                have : ∀ op ∈ choices, op.enabled = false := h.decided _ hmem
                simpa using this
              refine ⟨before schedule fair position, ?_, ih h.tail hv⟩
              simp only [Exchange.Moves, Strategy.nextOperation, answer, hdisabled,
                next_before_of_end fair hend]
      | boolean max answer =>
          obtain ⟨b?, rfl⟩ := h.legal _ hmem
          cases b? with
          | some b =>
              have hv : _ = Decision.boolean b :: verdicts l := hv
              obtain ⟨hlt, hplain, hrest⟩ := decision_of_drop hv
              refine ⟨_, answer_before fair _ hlt (readBoolean_of_plain hplain), ?_⟩
              rw [length_verdicts_cons rfl]
              exact ih h.tail hrest
          | none => exact (h.decided _ hmem).elim
      | integer max answer =>
          obtain ⟨n?, rfl, -⟩ := h.legal _ hmem
          cases n? with
          | some n =>
              have hv : _ = Decision.integer n :: verdicts l := hv
              obtain ⟨hlt, hplain, hrest⟩ := decision_of_drop hv
              have hread : readInteger schedule[position] = .ok (some n) := by
                rw [eq_of_plain_eq_integer hplain]
                rfl
              refine ⟨_, answer_before fair _ hlt hread, ?_⟩
              rw [length_verdicts_cons rfl]
              exact ih h.tail hrest
          | none => exact (h.decided _ hmem).elim

/-- A replay of a whole schedule follows the dialogue that has logged it, and then all of the
schedule has been handed out. -/
theorem follows_of_schedule {schedule : Schedule} {fair : Bool} {l : List Exchange}
    (h : Replayable fair l) (hv : schedule.toList.map Decision.plain = verdicts l) :
    Follows (.ofSchedule schedule fair none : Replay τ) l
      (before schedule fair schedule.size) := by
  have hfollow := follows_before (τ := τ) h (by rwa [List.drop_zero])
  have hlen : (verdicts l).length = schedule.size := by
    rw [← hv]
    simp
  rw [Nat.zero_add, hlen] at hfollow
  exact hfollow

end Replay

/-! ## Replaying a recorded run -/

/-- The run of a program on a scheduler is over after at most the given number of steps. -/
def Program.Ends {σ β : Type} [Strategy σ] (p : Program β) (s : Scheduler σ) (n : Nat)
    (m : Machine σ β) : Prop :=
  Machine.runFor p n (.start p s) = m ∧ Machine.step? p m = none

theorem decided_of_heard {l : List Exchange}
    (h : ∀ e ∈ l.filter Exchange.isHeard, e.Decided) : ∀ e ∈ l, e.Decided := by
  intro e he
  by_cases hheard : e.isHeard = true
  · exact h e (List.mem_filter.mpr ⟨he, hheard⟩)
  · cases e with
    | bound reached => trivial
    | fairness fair => trivial
    | logged d => trivial
    | operation choices current answer => exact absurd rfl hheard
    | boolean max answer => exact absurd rfl hheard
    | integer max answer => exact absurd rfl hheard
    | notice n => trivial
    | send sender target event delivery => trivial

/-- The dialogue of a recorded run that ended in order is one that a replay can follow. -/
theorem Scheduler.Passage.replayable {σ τ : Type} [Strategy τ] {s s' : Scheduler σ}
    {l : List Exchange} (h : s.Passage l s') (hslots : (s.slots.map Slot.id).Nodup)
    (herror : s'.error = none) (hbound : s'.boundReached = false)
    (hdecided : ∀ e ∈ l, e.Decided) {a a' : τ} {fair : Bool}
    (hfollow : Follows a l a') (hfair : ∀ r, Strategy.Reaches a r → Strategy.isFair r = fair)
    (hdeliver : ∀ r, Strategy.Reaches a r → ∀ sender target event,
      (Strategy.onSend r sender target event).1 = .deliver) : Replay.Replayable fair l where
  legal := (h.error herror).2
  decided := hdecided
  unbounded := (h.bound hbound).2
  fair b hb := by
    obtain ⟨r, r', hreach, hmoves, -⟩ := mem_of_follows hfollow hb
    rw [← hmoves]
    exact hfair r hreach
  delivered sender target event d hd := by
    obtain ⟨r, r', hreach, hmoves⟩ := mem_of_follows hfollow hd
    have hmoves : Strategy.onSend r sender target event = (d, r') := hmoves
    rw [← hdeliver r hreach sender target event, hmoves]
  distinct := (h.distinct hslots).2
  declined before e after hl hdecl := (h.declined before e after hl hdecl).2

theorem slots_start_nodup {σ β : Type} (p : Program β) (i : Nat) (c : Configuration) (q : σ) :
    ((Machine.start p (.new i c q)).scheduler.slots.map Slot.id).Nodup :=
  (Scheduler.quiet_create (.new i c q) .harness "harness").distinct List.nodup_nil

variable {σ τ β : Type} [Strategy σ] [Strategy τ]

/-- A run is recorded under a strategy that delivers every send and whose fairness does not change.
If it ends without an error and without being cut off, and the strategy has declined a request only
where nothing was enabled, then the replay of its schedule makes the same run: the same outcome, the
same log and the same recording, and all of the schedule is handed out. -/
theorem Program.replay_repeats_run (p : Program β) (c : Configuration) (i j n : Nat) (a : σ)
    (fair : Bool) (hfair : ∀ s, Strategy.Reaches a s → Strategy.isFair s = fair)
    (hdeliver : ∀ s, Strategy.Reaches a s → ∀ sender target event,
      (Strategy.onSend s sender target event).1 = .deliver)
    {m : Machine (Recorded σ) β} (hended : p.Ends (.new i c (.ofStrategy a)) n m)
    (herror : m.scheduler.error = none) (hbound : m.scheduler.boundReached = false)
    (hdecided : ∀ e ∈ p.heard n (.new i c (Recorded.ofStrategy a)), e.Decided) :
    ∃ m' : Machine (Recorded (Replay τ)) β,
      p.Ends (.new j c (.ofStrategy (.ofSchedule m.scheduler.schedule fair none))) n m' ∧
      m'.scheduler.outcome =
        { m.scheduler.outcome with steps := m.scheduler.schedule.size } ∧
      m'.scheduler.strategy.recorder = m.scheduler.strategy.recorder ∧
      (Strategy.onEnd m'.scheduler.strategy m'.scheduler.outcome).2.lastSummary =
        (Strategy.onEnd m.scheduler.strategy m.scheduler.outcome).2.lastSummary ∧
      m'.log = m.log := by
  obtain ⟨rfl, hover⟩ := hended
  let start := Machine.start p (.new i c (Recorded.ofStrategy a))
  let l := Machine.runSaid p n start
  -- the dialogue of the recorded run
  have hfollow : Follows (Recorded.ofStrategy a) l _ := Machine.follows_run p n start
  obtain ⟨a', hinner, hrecorded⟩ := follows_recorded.mp hfollow
  have hpassage := Machine.passage_runFor p n start
  have hreplayable := hpassage.replayable (slots_start_nodup p i c _) herror hbound
    (decided_of_heard (Program.heard_eq p n (.new i c (Recorded.ofStrategy a)) ▸ hdecided))
    hinner hfair hdeliver
  -- what it logs is the schedule, and the replay of the schedule follows it
  let schedule := Schedule.extend #[] l
  have hschedule : (Machine.runFor p n start).scheduler.schedule = schedule :=
    Machine.schedule_runFor p n start
  have hverdicts : schedule.toList.map Decision.plain = verdicts l := by
    simpa [schedule, Schedule.extend] using hpassage.logged herror
  have hreplay := Replay.follows_of_schedule (τ := τ) hreplayable hverdicts
  let first : Recorded (Replay τ) := .ofStrategy (.ofSchedule schedule fair none)
  let last : Recorded (Replay τ) :=
    ⟨.before schedule fair schedule.size, Recorder.empty.hearAll l, none⟩
  have hrecording : Follows first l last := follows_recorded.mpr ⟨_, hreplay, rfl⟩
  -- so that the same run is made
  have hrun := Machine.runFor_start_rehost p n c i j hrecording
  have hsteps : Strategy.steps last = schedule.size := by
    simp [Strategy.steps, last, Replay.before]
  refine ⟨(Machine.runFor p n start).rehost (Equiv.swap i j) last schedule, ⟨?_, ?_⟩, ?_, ?_, ?_,
    rfl⟩
  · rw [hschedule]
    exact hrun
  · exact (Machine.step?_rehost_eq_none _ _ _).mpr hover
  · simp only [Scheduler.outcome, Machine.rehost_scheduler, Scheduler.rehost, hsteps]
    rw [hschedule]
  · rw [hrecorded]
    rfl
  · rw [hrecorded]
    rfl

/-- A harness that may create a child, which waits for a message that nobody sends. -/
def waitingChild : Program Nat where
  act
    | ⟨0⟩, 0 => .boolean none fun b => if b then 1 else 2
    | ⟨0⟩, 1 => .create "child" 0 fun _ => 2
    | ⟨0⟩, _ => .finish
    | _, body => .receive fun _ => body
  main := 0

/-- A random walk that ends in a livelock is replayed. -/
theorem replay_repeats_run_of_waitingChild :
    let walk : Recorded RandomWalk := .ofStrategy (.ofSeed 2 0)
    let m := Machine.runFor waitingChild 20 (.start waitingChild (.new 0 {} walk))
    m.scheduler.schedule = #[.boolean true, .schedule ⟨0⟩, .schedule ⟨1⟩] ∧
      m.scheduler.bug.map (·.kind) = some .livelock ∧
      (∀ e ∈ waitingChild.heard 20 (.new 0 {} walk), e.Decided) ∧
      ∃ m' : Machine (Recorded (Replay RandomWalk)) Nat,
        waitingChild.Ends
          (.new 1 {} (.ofStrategy (.ofSchedule m.scheduler.schedule true none))) 20 m' ∧
        m'.scheduler.outcome = { m.scheduler.outcome with steps := 3 } ∧
        m'.scheduler.strategy.recorder = m.scheduler.strategy.recorder := by
  intro walk m
  have hfacts : (Machine.step? waitingChild m).isNone = true ∧ m.scheduler.error = none ∧
      m.scheduler.boundReached = false ∧
      m.scheduler.schedule = #[.boolean true, .schedule ⟨0⟩, .schedule ⟨1⟩] ∧
      m.scheduler.bug.map (·.kind) = some .livelock ∧
      ∀ e ∈ waitingChild.heard 20 (.new 0 {} walk), e.Decided := by
    decide +kernel
  obtain ⟨hstep, herror, hbound, hschedule, hbug, hdecided⟩ := hfacts
  have hended : waitingChild.Ends (.new 0 {} walk) 20 m :=
    ⟨rfl, Option.isNone_iff_eq_none.mp hstep⟩
  have hrepeat := Program.replay_repeats_run (σ := RandomWalk) (τ := RandomWalk) waitingChild {} 0 1
    20 (RandomWalk.ofSeed 2 0) true (fun _ _ => rfl) (fun _ _ _ _ _ => rfl) hended herror hbound
    hdecided
  obtain ⟨m', hended', houtcome, hrecorder, -, -⟩ := hrepeat
  refine ⟨hschedule, hbug, hdecided, m', hended', ?_, hrecorder⟩
  rw [houtcome, hschedule]
  rfl

end Interleave
