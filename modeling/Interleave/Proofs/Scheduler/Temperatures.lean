import Interleave.Proofs.Scheduler.Listing
import Interleave.Proofs.Scheduler.Verdict
import Mathlib.Order.Bounds.Basic

/-!
# Temperatures of hot monitors

A hot monitor is listed with its temperature, and each scheduling decision under a fair strategy
raises all temperatures by one. What a call does to them is one of three things
(`Scheduler.Tempers`). From the calls alone one can tell since when a monitor has been hot
(`Scheduler.HotFor`), so that in a run that goes on the list is determined by them
(`Scheduler.tracks_of_running`). A run ends as soon as a temperature passes the threshold, with
the first such monitor by name (`Scheduler.heated_of_push`).
-/

namespace Interleave

/-! ## Lists of temperatures -/

/-- All temperatures raised by one. -/
def warmed (monitors : List (String × Nat)) : List (String × Nat) :=
  monitors.map fun entry => (entry.1, entry.2 + 1)

/-- The monitors above the threshold. -/
def tooHot (threshold : Nat) (monitors : List (String × Nat)) : Set String :=
  {m | ∃ k, (m, k) ∈ monitors ∧ threshold < k}

theorem mem_warmed {m : String} {k : Nat} {monitors : List (String × Nat)} :
    (m, k) ∈ warmed monitors ↔ ∃ j, (m, j) ∈ monitors ∧ k = j + 1 := by
  constructor
  · intro h
    obtain ⟨⟨m', j⟩, hmem, heq⟩ := List.mem_map.mp h
    cases heq
    exact ⟨j, hmem, rfl⟩
  · rintro ⟨j, hmem, rfl⟩
    exact List.mem_map.mpr ⟨(m, j), hmem, rfl⟩

/-- A monitor that is not listed yet is put in with temperature zero; the others stay. -/
theorem mem_insertMonitor {name m : String} {k : Nat} {monitors : List (String × Nat)}
    (h : (monitors.map Prod.fst).Pairwise (· < ·)) :
    (m, k) ∈ insertMonitor name monitors ↔
      (m, k) ∈ monitors ∨ m = name ∧ k = 0 ∧ name ∉ monitors.map Prod.fst := by
  induction monitors with
  | nil => simp [insertMonitor]
  | cons entry rest ih =>
      obtain ⟨first, n⟩ := entry
      rw [List.map_cons, List.pairwise_cons] at h
      obtain ⟨hfirst, hrest⟩ := h
      rw [insertMonitor]
      split
      · -- the monitor comes before all the others, so it is none of them
        rename_i hlt
        have hnew : name ∉ (((first, n) :: rest).map Prod.fst) := by
          rw [List.map_cons, List.mem_cons, not_or]
          exact ⟨ne_of_lt hlt, fun hmem => lt_asymm hlt (hfirst name hmem)⟩
        rw [List.mem_cons, Prod.mk.injEq, or_comm, iff_true_intro hnew, and_true]
      · split
        · rename_i heq
          rw [heq]
          simp
        · rename_i hne
          rw [List.mem_cons, List.mem_cons, ih hrest, List.map_cons, List.mem_cons, or_assoc]
          simp [hne]

/-- The first monitor above the threshold is the least one by name. -/
theorem find?_tooHot_iff {threshold : Nat} {monitors : List (String × Nat)} {m : String}
    (h : (monitors.map Prod.fst).Pairwise (· < ·)) :
    (monitors.find? fun entry => threshold < entry.2).map Prod.fst = some m ↔
      IsLeast (tooHot threshold monitors) m := by
  induction monitors with
  | nil =>
      have hnone : ¬IsLeast (tooHot threshold []) m := by
        rintro ⟨⟨k, hmem, -⟩, -⟩
        cases hmem
      simpa using hnone
  | cons entry rest ih =>
      obtain ⟨first, n⟩ := entry
      rw [List.map_cons, List.pairwise_cons] at h
      obtain ⟨hfirst, hrest⟩ := h
      by_cases hhot : threshold < n
      · have hleast : IsLeast (tooHot threshold ((first, n) :: rest)) first := by
          refine ⟨⟨n, List.mem_cons_self, hhot⟩, ?_⟩
          rintro m' ⟨k, hmem, -⟩
          rcases List.mem_cons.mp hmem with heq | hmem
          · exact le_of_eq (Prod.mk.inj heq).1.symm
          · exact le_of_lt (hfirst m' (List.mem_map_of_mem hmem))
        rw [List.find?_cons_of_pos (by simpa using hhot), Option.map_some, Option.some.injEq]
        exact ⟨fun heq => heq ▸ hleast, fun hm => hleast.unique hm⟩
      · have hsame : tooHot threshold ((first, n) :: rest) = tooHot threshold rest := by
          ext m'
          constructor
          · rintro ⟨k, hmem, hk⟩
            rcases List.mem_cons.mp hmem with heq | hmem
            · exact absurd ((Prod.mk.inj heq).2 ▸ hk) hhot
            · exact ⟨k, hmem, hk⟩
          · rintro ⟨k, hmem, hk⟩
            exact ⟨k, List.mem_cons_of_mem _ hmem, hk⟩
        rw [List.find?_cons_of_neg (by simpa using hhot), hsame]
        exact ih hrest

theorem Schedule.schedulingChoices_push (schedule : Schedule) (d : Decision) :
    Schedule.schedulingChoices (schedule.push d) =
      schedule.schedulingChoices + d.isSchedule.toNat := by
  rw [schedulingChoices, schedulingChoices, Array.toList_push, List.countP_append,
    List.countP_singleton]
  cases d.isSchedule <;> rfl

namespace Scheduler

/-! ## Turns of monitors -/

/-- Whether the call announces that the monitor is hot now, or cold. -/
def Call.turn? (m : String) : Call → Option Bool
  | .notify (.monitored monitor _ hot) => if monitor = m then some hot else none
  | _ => none

/-- The last announcement about the monitor. -/
def lastTurn? (m : String) (calls : List Call) : Option Bool :=
  (calls.filterMap (Call.turn? m)).getLast?

theorem lastTurn?_concat (m : String) (calls : List Call) (c : Call) :
    lastTurn? m (calls ++ [c]) = (c.turn? m).or (lastTurn? m calls) := by
  rw [lastTurn?, lastTurn?, List.filterMap_append, List.getLast?_append]
  cases hturn : c.turn? m with
  | none => rw [List.filterMap_cons_none hturn]; rfl
  | some hot => rw [List.filterMap_cons_some hturn]; rfl

theorem eq_monitored_of_turn? {n : Notice} {m : String} {hot : Bool}
    (h : (Call.notify n).turn? m = some hot) : ∃ sender, n = .monitored m sender hot := by
  cases n with
  | monitored monitor sender hot' =>
      rw [Call.turn?] at h
      split at h
      · rename_i hmonitor
        cases h
        exact ⟨sender, by rw [hmonitor]⟩
      · cases h
  | created | started | received | chosen => cases h

variable {σ : Type}

/-- A notice that does not tell of a monitor leaves it listed or not as it is. -/
theorem mem_monitorsAfter_of_silent {s : Scheduler σ} {n : Notice} {m : String} (k : Nat)
    (hsorted : (s.hotMonitors.map Prod.fst).Pairwise (· < ·))
    (h : (Call.notify n).turn? m = none) :
    (m, k) ∈ s.monitorsAfter n ↔ (m, k) ∈ s.hotMonitors := by
  cases n with
  | monitored monitor sender hot =>
      have hne : m ≠ monitor := by
        rintro rfl
        rw [Call.turn?, if_pos rfl] at h
        cases h
      cases hot with
      | true => simp [monitorsAfter, mem_insertMonitor hsorted, hne]
      | false => simp [monitorsAfter, hne]
  | created | started | received | chosen => exact Iff.rfl

theorem Call.turn?_of_silent {c : Call} (h : c.isNotice = false) (m : String) :
    c.turn? m = none := by
  cases c with
  | notify n => cases h
  | create | start | yield | nextBoolean | nextInteger | blockOnReceive | unblock | complete | send
  | failAssertion | reportAssertion | stop => rfl

variable [Strategy σ]

theorem keeps_schedule_notify (s : Scheduler σ) (n : Notice) :
    (s.notify n).schedule = s.schedule := by
  rw [schedule_notify, s.schedule.extend_of_logged_eq_nil (logged_noticeSaid s n)]

/-- One of the calls has turned the monitor from cold to hot, none after it has turned it cold
again, and the given number of scheduling decisions has been logged since. -/
def HotFor (start : Scheduler σ) (m : String) (k : Nat) (calls : List Call) : Prop :=
  ∃ before c after, calls = before ++ c :: after ∧ c.turn? m = some true ∧
    lastTurn? m before ≠ some true ∧ (∀ c' ∈ after, c'.turn? m ≠ some false) ∧
    (start.afterAll calls).schedule.schedulingChoices =
      (start.afterAll before).schedule.schedulingChoices + k

theorem schedulingChoices_after_le (s : Scheduler σ) (c : Call) :
    s.schedule.schedulingChoices ≤ (s.after c).schedule.schedulingChoices := by
  rcases schedule_after s c with hsame | ⟨d, hpush, -⟩
  · rw [hsame]
  · rw [hpush, Schedule.schedulingChoices_push]
    exact Nat.le_add_right _ _

theorem schedulingChoices_afterAll_le (s : Scheduler σ) (calls : List Call) :
    s.schedule.schedulingChoices ≤ (s.afterAll calls).schedule.schedulingChoices := by
  induction calls generalizing s with
  | nil => exact Nat.le_refl _
  | cons c calls ih => exact (schedulingChoices_after_le s c).trans (ih (s.after c))

variable {start : Scheduler σ} {m : String} {k : Nat} {calls : List Call} {c : Call}

theorem not_hotFor_nil : ¬start.HotFor m k [] := by
  rintro ⟨before, c, after, hcalls, -⟩
  simp at hcalls

theorem not_hotFor_concat_of_cold (hcold : c.turn? m = some false) :
    ¬start.HotFor m k (calls ++ [c]) := by
  rintro ⟨before, c', after, hcalls, hhot, -, hstays, -⟩
  rcases List.eq_nil_or_concat after with rfl | ⟨rest, last, rfl⟩
  · obtain ⟨-, hlast⟩ := List.append_inj' hcalls rfl
    obtain rfl := List.singleton_inj.mp hlast
    rw [hcold] at hhot
    cases hhot
  · rw [List.concat_eq_append, ← List.cons_append, ← List.append_assoc] at hcalls
    obtain ⟨-, hlast⟩ := List.append_inj' hcalls rfl
    obtain rfl := List.singleton_inj.mp hlast
    exact hstays c (by simp) hcold

/-- A call that does not turn the monitor cold lets it stay hot, or turns it hot if it was not. -/
theorem hotFor_concat_iff {more : Nat} (hstays : c.turn? m ≠ some false)
    (hmore : (start.afterAll (calls ++ [c])).schedule.schedulingChoices =
      (start.afterAll calls).schedule.schedulingChoices + more) :
    start.HotFor m k (calls ++ [c]) ↔
      (∃ j, start.HotFor m j calls ∧ k = j + more) ∨
        c.turn? m = some true ∧ lastTurn? m calls ≠ some true ∧ k = more := by
  constructor
  · rintro ⟨before, c', after, hcalls, hhot, hcold, hafter, hlogged⟩
    rcases List.eq_nil_or_concat after with rfl | ⟨rest, last, rfl⟩
    · -- the last call is the one that has turned the monitor hot
      obtain ⟨rfl, hlast⟩ := List.append_inj' hcalls rfl
      obtain rfl := List.singleton_inj.mp hlast
      refine Or.inr ⟨hhot, hcold, ?_⟩
      omega
    · rw [List.concat_eq_append] at hcalls hafter
      rw [← List.cons_append, ← List.append_assoc] at hcalls
      obtain ⟨rfl, -⟩ := List.append_inj' hcalls rfl
      have hle := schedulingChoices_afterAll_le (start.afterAll before) (c' :: rest)
      rw [← afterAll_append] at hle
      obtain ⟨j, hj⟩ := Nat.exists_eq_add_of_le hle
      refine Or.inl ⟨j, ⟨before, c', rest, rfl, hhot, hcold, fun c'' hmem => ?_, hj⟩, by omega⟩
      exact hafter c'' (List.mem_append_left _ hmem)
  · rintro (⟨j, ⟨before, c', after, rfl, hhot, hcold, hafter, hlogged⟩, rfl⟩ | ⟨hhot, hcold, rfl⟩)
    · refine ⟨before, c', after ++ [c], by simp, hhot, hcold, ?_, by omega⟩
      intro c'' hmem
      rcases List.mem_append.mp hmem with hmem | hmem
      · exact hafter c'' hmem
      · rw [List.mem_singleton.mp hmem]
        exact hstays
    · exact ⟨calls, c, [], rfl, hhot, hcold, fun c' hmem => absurd hmem List.not_mem_nil, hmore⟩

/-- A monitor has been hot for some time if and only if its last turn was to hot. -/
theorem exists_hotFor_iff (start : Scheduler σ) :
    (∃ k, start.HotFor m k calls) ↔ lastTurn? m calls = some true := by
  induction calls using List.reverseRecOn with
  | nil =>
      constructor
      · rintro ⟨k, hfor⟩
        exact absurd hfor not_hotFor_nil
      · intro h
        cases h
  | append_singleton calls c ih =>
      obtain ⟨more, hmore⟩ :=
        Nat.exists_eq_add_of_le (schedulingChoices_after_le (start.afterAll calls) c)
      rw [← afterAll_concat] at hmore
      rw [lastTurn?_concat]
      rcases hturn : c.turn? m with _ | _ | _
      · simp only [hotFor_concat_iff (by rw [hturn]; nofun) hmore, hturn, Option.none_or, ← ih]
        simp
      · constructor
        · rintro ⟨k, hfor⟩
          exact absurd hfor (not_hotFor_concat_of_cold hturn)
        · intro h
          cases h
      · simp only [hotFor_concat_iff (by rw [hturn]; nofun) hmore, hturn, Option.some_or, iff_true]
        -- a monitor that is hot already stays hot since its earlier turn
        by_cases hlast : lastTurn? m calls = some true
        · obtain ⟨j, hj⟩ := ih.mpr hlast
          exact ⟨j + more, Or.inl ⟨j, hj, rfl⟩⟩
        · exact ⟨more, Or.inr ⟨trivial, hlast, rfl⟩⟩

/-! ## What calls do to temperatures -/

/-- What a call does to the temperatures, and to the verdict if it logs a decision. -/
inductive Tempers (s : Scheduler σ) : Call → Scheduler σ → Prop
  /-- A notice is passed on. -/
  | notifies (n : Notice) : Tempers s (.notify n) (s.notify n)
  /-- No operation is named, and if a value is logged the run goes on. -/
  | spares {c : Call} {s' : Scheduler σ} (silent : ∀ m, c.turn? m = none)
      (monitors : s'.hotMonitors = s.hotMonitors)
      (choices : s'.schedule.schedulingChoices = s.schedule.schedulingChoices)
      (quiet : s'.schedule = s.schedule ∨ s.SameVerdict s') : Tempers s c s'
  /-- An operation is named and logged. -/
  | dispatches {c : Call} {s₁ : Scheduler σ} (silent : ∀ m, c.turn? m = none)
      (same : s.SameVerdict s₁) (monitors : s₁.hotMonitors = s.hotMonitors)
      (schedule : s₁.schedule = s.schedule) (reaches : Strategy.Reaches s.strategy s₁.strategy)
      (current next : OperationId) : Tempers s c (s₁.dispatch current next).2

theorem Tempers.of_schedule {s s' : Scheduler σ} {c : Call} (silent : ∀ m, c.turn? m = none)
    (monitors : s'.hotMonitors = s.hotMonitors) (schedule : s'.schedule = s.schedule) :
    s.Tempers c s' :=
  .spares silent monitors (by rw [schedule]) (Or.inl schedule)

theorem schedule_exhaust (s : Scheduler σ) (choices : List Snapshot) :
    (s.exhaust choices).schedule = s.schedule := by
  rcases exhaust_cases s choices with ⟨names, -, hend⟩ | ⟨monitor, -, hend⟩ | hend <;> rw [hend] <;>
    rfl

theorem tempers_resolve {s : Scheduler σ} {t : Token} {next : Declared} {c : Call}
    (silent : ∀ m, c.turn? m = none) (answer : Answer OperationId) :
    s.Tempers c ((s.asked t next).2.resolve t.operation (s.shown t next) answer).2 := by
  have halike := alike_asked s t next
  have hmoves : (Exchange.operation (s.shown t next) t.operation (s.asked t next).1).Moves
      s.strategy (s.asked t next).2.strategy := rfl
  rcases resolve_cases (s.asked t next).2 t.operation (s.shown t next) answer with
    ⟨e, hend⟩ | ⟨-, hend⟩ | ⟨d, -, hdispatch⟩
  · rw [hend]
    exact .of_schedule silent halike.hotMonitors halike.schedule
  · rw [hend]
    refine .of_schedule silent ?_ ?_
    · exact (monitors_exhaust (s.asked t next).2 (s.shown t next)).trans halike.hotMonitors
    · exact (schedule_exhaust (s.asked t next).2 (s.shown t next)).trans halike.schedule
  · rw [hdispatch]
    exact .dispatches silent halike.sameVerdict halike.hotMonitors halike.schedule
      (Strategy.Reaches.refl.step hmoves) t.operation d

/-- A value that is logged is no scheduling decision. -/
theorem tempers_settle {α : Type} {s : Scheduler σ} {c : Call} (silent : ∀ m, c.turn? m = none)
    (q : σ) (t : Token) (toChoice : α → Choice) {toDecision : α → Decision}
    (hvalue : ∀ value, (toDecision value).isSchedule = false) (answer : Answer α) :
    s.Tempers c ({ s with strategy := q }.settle t toChoice toDecision answer).2 := by
  rcases answer with e | _ | value
  · exact .of_schedule silent rfl rfl
  · exact .of_schedule silent rfl rfl
  · refine .spares silent rfl ?_ (Or.inr ⟨rfl, rfl, rfl, rfl, rfl, rfl⟩)
    show Schedule.schedulingChoices (s.schedule.push (toDecision value)) = _
    rw [Schedule.schedulingChoices_push, hvalue value]
    rfl

theorem tempers_after (s : Scheduler σ) (c : Call) : s.Tempers c (s.after c) := by
  have heffect := effect_after s c
  generalize s.after c = s' at heffect
  cases heffect with
  | notifies n => exact .notifies n
  | keeps silent alike | stops silent alike | fails silent alike =>
      exact .of_schedule (Call.turn?_of_silent silent) alike.hotMonitors alike.schedule
  | reports text => exact .of_schedule (fun _ => rfl) rfl rfl
  | resolves t kind targetKind target => exact tempers_resolve (fun _ => rfl) _
  | flips t max fairness =>
      refine tempers_settle (fun _ => rfl) _ t _ (fun b => ?_) _
      cases fairness <;> rfl
  | rolls t max => exact tempers_settle (fun _ => rfl) _ t _ (fun n => rfl) _

/-! ## Dispatching -/

/-- Nothing is heated without a threshold or under an unfair strategy. -/
def Tepid (s : Scheduler σ) : Prop :=
  s.config.livenessThreshold = 0 ∨ Strategy.isFair s.strategy = false

theorem tepid_iff {s : Scheduler σ} :
    (s.config.livenessThreshold = 0 || !Strategy.isFair s.strategy) = true ↔ s.Tepid := by
  simp [Tepid]

/-- Under a fair strategy and with a threshold monitors are heated, whatever the strategy is asked
before. -/
theorem not_tepid_of_fair {s s₁ : Scheduler σ} (hthreshold : 0 < s.config.livenessThreshold)
    (hfair : ∀ q, Strategy.Reaches s.strategy q → Strategy.isFair q = true)
    (hsame : s.SameVerdict s₁) (hreaches : Strategy.Reaches s.strategy s₁.strategy) :
    ¬s₁.Tepid := by
  rintro (hzero | hunfair)
  · rw [hsame.config] at hzero
    exact absurd hzero (Nat.ne_of_gt hthreshold)
  · rw [hfair s₁.strategy hreaches] at hunfair
    cases hunfair

theorem schedule_dispatch (s : Scheduler σ) (current next : OperationId) :
    (s.dispatch current next).2.schedule = s.schedule.push (.schedule next) := by
  let s₁ := { s with schedule := s.schedule.push (.schedule next) }
  have hheat : s₁.heat.schedule = s₁.schedule := by
    rcases heat_cases s₁ with hheat | hheat <;> rw [hheat]
  cases hfound : s₁.heat.overheatedMonitor? with
  | some m =>
      rw [dispatch_of_overheated (s := s) rfl hfound]
      exact hheat
  | none =>
      rw [dispatch_of_cool (s := s) rfl hfound]
      exact (alike_handOver s₁.heat current next).schedule.trans hheat

theorem dispatch_of_tepid {s : Scheduler σ} (h : s.Tepid) (current next : OperationId) :
    (s.dispatch current next).2.hotMonitors = s.hotMonitors ∧
      s.SameVerdict (s.dispatch current next).2 := by
  let s₁ := { s with schedule := s.schedule.push (.schedule next) }
  have hcold : (s₁.config.livenessThreshold = 0 || !Strategy.isFair s₁.strategy) = true :=
    tepid_iff.mpr h
  have hheat : s₁.heat = s₁ := if_pos hcold
  have hnone : s₁.overheatedMonitor? = none := if_pos hcold
  have hsame : s.SameVerdict s₁ := ⟨rfl, rfl, rfl, rfl, rfl, rfl⟩
  rw [dispatch_of_cool (s := s) hheat hnone]
  have halike := alike_handOver s₁ current next
  exact ⟨halike.hotMonitors, hsame.trans halike.sameVerdict⟩

/-- A dispatch heats all monitors and ends the run with the first one above the threshold. -/
theorem dispatch_of_not_tepid {s : Scheduler σ} (h : ¬s.Tepid)
    (hsorted : (s.hotMonitors.map Prod.fst).Pairwise (· < ·)) (current next : OperationId) :
    let s' := (s.dispatch current next).2
    let hot := tooHot s.config.livenessThreshold (warmed s.hotMonitors)
    s'.hotMonitors = warmed s.hotMonitors ∧
      ((∃ m, IsLeast hot m ∧ s'.running = false ∧
          s'.bug = s.bug.or (some ⟨.liveness m, overheated m⟩)) ∨
        (∀ m, m ∉ hot) ∧ s'.running = s.running ∧ s'.bug = s.bug) := by
  intro s' hot
  let s₁ := { s with schedule := s.schedule.push (.schedule next) }
  have hwarm : ¬(s₁.config.livenessThreshold = 0 || !Strategy.isFair s₁.strategy) = true :=
    fun hcold => h (tepid_iff.mp hcold)
  have hheat : s₁.heat = { s₁ with hotMonitors := warmed s.hotMonitors } := if_neg hwarm
  have hsorted' : ((warmed s.hotMonitors).map Prod.fst).Pairwise (· < ·) := by
    rw [warmed, List.map_map]
    exact hsorted
  have hfind : s₁.heat.overheatedMonitor? =
      ((warmed s.hotMonitors).find? fun entry => s.config.livenessThreshold < entry.2).map
        Prod.fst := by
    rw [hheat, overheatedMonitor?, if_neg hwarm]
  cases hfound : s₁.heat.overheatedMonitor? with
  | some m =>
      have hs' : s' = s₁.heat.fail (.liveness m) (overheated m) :=
        congrArg Prod.snd (dispatch_of_overheated (s := s) rfl hfound)
      rw [hs', hheat]
      exact ⟨rfl, Or.inl ⟨m, (find?_tooHot_iff hsorted').mp (hfind.symm.trans hfound), rfl, rfl⟩⟩
  | none =>
      have hs' : s' = (s₁.heat.handOver current next).2 :=
        congrArg Prod.snd (dispatch_of_cool (s := s) rfl hfound)
      have halike := alike_handOver s₁.heat current next
      rw [hs']
      refine ⟨?_, Or.inr ⟨fun m hm => ?_, ?_, ?_⟩⟩
      · rw [halike.hotMonitors, hheat]
      · obtain ⟨k, hmem, hk⟩ := hm
        have hcool := List.find?_eq_none.mp (Option.map_eq_none_iff.mp (hfind.symm.trans hfound))
        exact hcool (m, k) hmem (decide_eq_true hk)
      · rw [halike.running, hheat]
      · rw [halike.bug, hheat]

/-! ## Whole runs -/

theorem running_of_running_after {s : Scheduler σ} {c : Call} (h : (s.after c).running = true) :
    s.running = true := by
  by_contra hover
  rw [((passage_after s c).silent (Bool.eq_false_iff.mpr hover)).2] at h
  cases h

theorem sorted_hotMonitors (i : Nat) (config : Configuration) (q : σ) (calls : List Call) :
    (((new i config q).afterAll calls).hotMonitors.map Prod.fst).Pairwise (· < ·) :=
  ((listed_new i config q).makes ⟨calls, rfl, rfl⟩).monitors

theorem reaches_afterAll (s : Scheduler σ) (calls : List Call) :
    Strategy.Reaches s.strategy (s.afterAll calls).strategy :=
  Strategy.Reaches.refl.follows (follows_saidAll s calls)

/-- The list has each hot monitor with the time for which it has been hot, which is within the
threshold. -/
structure Tracks (start : Scheduler σ) (calls : List Call) : Prop where
  hot : ∀ m k, (m, k) ∈ (start.afterAll calls).hotMonitors ↔ start.HotFor m k calls
  within : ∀ m k, (m, k) ∈ (start.afterAll calls).hotMonitors → k ≤ start.config.livenessThreshold

theorem Tracks.listed (h : start.Tracks calls) (m : String) :
    m ∈ (start.afterAll calls).hotMonitors.map Prod.fst ↔ lastTurn? m calls = some true := by
  rw [← exists_hotFor_iff start]
  constructor
  · intro hmem
    obtain ⟨⟨m', k⟩, hentry, rfl⟩ := List.mem_map.mp hmem
    exact ⟨k, (h.hot m' k).mp hentry⟩
  · rintro ⟨k, hfor⟩
    exact List.mem_map_of_mem ((h.hot m k).mpr hfor)

/-- A notice makes a monitor hot from now on, cools it or tells of none. -/
theorem Tracks.notify (h : start.Tracks calls)
    (hsorted : ((start.afterAll calls).hotMonitors.map Prod.fst).Pairwise (· < ·))
    (hrun : (start.afterAll calls).running = true) (n : Notice) :
    start.Tracks (calls ++ [.notify n]) := by
  have hnotify : start.afterAll (calls ++ [.notify n]) =
      { start.afterAll calls with
        hotMonitors := (start.afterAll calls).monitorsAfter n
        strategy := Strategy.observe (start.afterAll calls).strategy n } := by
    rw [afterAll_concat]
    exact if_pos hrun
  have hsame : (start.afterAll (calls ++ [.notify n])).schedule.schedulingChoices =
      (start.afterAll calls).schedule.schedulingChoices + 0 := by
    rw [hnotify]
    rfl
  have hlist : ∀ m k, (m, k) ∈ (start.afterAll calls).monitorsAfter n ↔
      start.HotFor m k (calls ++ [.notify n]) := by
    intro m k
    -- the notice is of another monitor or of none, turns this one cold, or turns it hot
    rcases hturn : (Call.notify n).turn? m with _ | _ | _
    · rw [mem_monitorsAfter_of_silent k hsorted hturn, h.hot,
        hotFor_concat_iff (by rw [hturn]; nofun) hsame]
      simp [hturn]
    · obtain ⟨sender, rfl⟩ := eq_monitored_of_turn? hturn
      refine iff_of_false (fun hmem => ?_) (not_hotFor_concat_of_cold hturn)
      simp [monitorsAfter] at hmem
    · obtain ⟨sender, rfl⟩ := eq_monitored_of_turn? hturn
      rw [monitorsAfter, mem_insertMonitor hsorted, h.hot, h.listed,
        hotFor_concat_iff (by rw [hturn]; nofun) hsame]
      simp [hturn, and_comm]
  refine ⟨fun m k => by rw [hnotify]; exact hlist m k, fun m k hmem => ?_⟩
  rw [hnotify] at hmem
  by_cases hcold : (Call.notify n).turn? m = some false
  · exact absurd ((hlist m k).mp hmem) (not_hotFor_concat_of_cold hcold)
  · rcases (hotFor_concat_iff hcold hsame).mp ((hlist m k).mp hmem) with ⟨j, hfor, hk⟩ | ⟨-, -, hk⟩
    · rw [hk]
      exact h.within m j ((h.hot m j).mpr hfor)
    · rw [hk]
      exact Nat.zero_le _

/-- Each call of a run that goes on keeps the list right. -/
theorem Tracks.concat (h : start.Tracks calls)
    (hsorted : ((start.afterAll calls).hotMonitors.map Prod.fst).Pairwise (· < ·))
    (hthreshold : 0 < start.config.livenessThreshold)
    (hfair : ∀ q, Strategy.Reaches (start.afterAll calls).strategy q → Strategy.isFair q = true)
    (hrun : (start.afterAll (calls ++ [c])).running = true) : start.Tracks (calls ++ [c]) := by
  have htempers := tempers_after (start.afterAll calls) c
  have hafter := start.afterAll_concat calls c
  rw [hafter] at hrun
  have hrunning := running_of_running_after hrun
  generalize (start.afterAll calls).after c = s' at htempers hafter hrun
  -- a call that tells of no monitor adds what it logs to every temperature
  have hstep : ∀ more, (∀ m, c.turn? m = none) →
      s'.schedule.schedulingChoices =
        (start.afterAll calls).schedule.schedulingChoices + more →
      (∀ m k, (m, k) ∈ s'.hotMonitors ↔
        ∃ j, (m, j) ∈ (start.afterAll calls).hotMonitors ∧ k = j + more) →
      ∀ m k, (m, k) ∈ s'.hotMonitors ↔ start.HotFor m k (calls ++ [c]) := by
    intro more hsilent hmore hmonitors m k
    rw [← hafter] at hmore
    rw [hmonitors, hotFor_concat_iff (by rw [hsilent m]; nofun) hmore, hsilent m]
    simp only [h.hot, reduceCtorEq, false_and, or_false]
  cases htempers with
  | notifies n => exact h.notify hsorted hrunning n
  | spares silent monitors choices =>
      refine ⟨?_, fun m k hmem => ?_⟩
      · rw [hafter]
        exact hstep 0 silent choices fun m k => by simp [monitors]
      · rw [hafter, monitors] at hmem
        exact h.within m k hmem
  | @dispatches _ s₁ silent same monitors schedule reaches current next =>
      have hconfig : s₁.config = start.config := same.config.trans (config_afterAll start calls)
      rw [← config_afterAll start calls] at hthreshold
      have hheats := not_tepid_of_fair hthreshold hfair same reaches
      rw [← monitors] at hsorted
      obtain ⟨hwarmed, ⟨m, -, hover, -⟩ | ⟨hcool, -⟩⟩ :=
        dispatch_of_not_tepid hheats hsorted current next
      · rw [hover] at hrun
        cases hrun
      · rw [monitors] at hwarmed hcool
        rw [hconfig] at hcool
        refine ⟨?_, fun m k hmem => ?_⟩
        · rw [hafter]
          refine hstep 1 silent ?_ fun m k => by rw [hwarmed, mem_warmed]
          rw [schedule_dispatch, Schedule.schedulingChoices_push, schedule]
          rfl
        · rw [hafter, hwarmed] at hmem
          exact Nat.le_of_not_lt fun hlt => hcool m ⟨k, hmem, hlt⟩

/-- Under a fair strategy and with a threshold the list is right as long as the run goes on. -/
theorem tracks_of_running {i : Nat} {config : Configuration} {q : σ}
    (hfair : ∀ q', Strategy.Reaches q q' → Strategy.isFair q' = true)
    (hthreshold : 0 < config.livenessThreshold) {calls : List Call}
    (hrun : ((new i config q).afterAll calls).running = true) :
    (new i config q).Tracks calls := by
  induction calls using List.reverseRecOn with
  | nil =>
      refine ⟨fun m k => ?_, fun m k hmem => ?_⟩
      · exact iff_of_false (fun hmem => nomatch hmem) not_hotFor_nil
      · cases hmem
  | append_singleton calls c ih =>
      have hbefore : ((new i config q).afterAll calls).running = true := by
        rw [afterAll_concat] at hrun
        exact running_of_running_after hrun
      refine (ih hbefore).concat (sorted_hotMonitors i config q calls) hthreshold ?_ hrun
      exact fun q' hq' => hfair q' ((reaches_afterAll (new i config q) calls).trans hq')

/-- A call that logs an operation to run has dispatched to one. -/
theorem Tempers.of_push {s s' : Scheduler σ} (h : s.Tempers c s') {id : OperationId}
    (hpush : s'.schedule = s.schedule.push (.schedule id)) :
    ∃ s₁ current next, s.SameVerdict s₁ ∧ s₁.hotMonitors = s.hotMonitors ∧
      Strategy.Reaches s.strategy s₁.strategy ∧ s' = (s₁.dispatch current next).2 := by
  have hmore : s'.schedule.schedulingChoices = s.schedule.schedulingChoices + 1 := by
    rw [hpush, Schedule.schedulingChoices_push]
    rfl
  cases h with
  | notifies n =>
      rw [keeps_schedule_notify] at hmore
      omega
  | spares silent monitors choices => omega
  | @dispatches _ s₁ silent same monitors schedule reaches current next =>
      exact ⟨s₁, current, next, same, monitors, reaches, rfl⟩

/-- A decision is logged only while the run goes on. -/
theorem running_of_push {s : Scheduler σ} {d : Decision}
    (hpush : (s.after c).schedule = s.schedule.push d) : s.running = true := by
  by_contra hover
  have hsilent := ((passage_after s c).silent (Bool.eq_false_iff.mpr hover)).1
  have hsame := schedule_extend_said s c
  rw [hsilent, Schedule.extend_nil, hpush] at hsame
  simpa using congrArg Array.size hsame

/-- Where monitors are heated, a call that logs an operation raises all temperatures by one, and
ends the run with a bug of the least monitor above the threshold if there is one. -/
theorem heated_of_push {s : Scheduler σ} (hopen : s.Open)
    (hsorted : (s.hotMonitors.map Prod.fst).Pairwise (· < ·))
    (hthreshold : 0 < s.config.livenessThreshold)
    (hfair : ∀ q, Strategy.Reaches s.strategy q → Strategy.isFair q = true) {id : OperationId}
    (hpush : (s.after c).schedule = s.schedule.push (.schedule id)) :
    (s.after c).hotMonitors = warmed s.hotMonitors ∧
      ((s.after c).running = false ↔
        (tooHot s.config.livenessThreshold (s.after c).hotMonitors).Nonempty) ∧
      ((∃ m, (s.after c).bug = some ⟨.liveness m, overheated m⟩) ↔
        (tooHot s.config.livenessThreshold (s.after c).hotMonitors).Nonempty) ∧
      ∀ m, (s.after c).bug = some ⟨.liveness m, overheated m⟩ ↔
        IsLeast (tooHot s.config.livenessThreshold (s.after c).hotMonitors) m := by
  obtain ⟨s₁, current, next, same, monitors, reaches, hs'⟩ := (tempers_after s c).of_push hpush
  have hheats := not_tepid_of_fair hthreshold hfair same reaches
  rw [← monitors] at hsorted
  have hdispatch := dispatch_of_not_tepid hheats hsorted current next
  rw [monitors, same.config, same.running, same.bug, hopen.running, hopen.bug] at hdispatch
  rw [hs']
  obtain ⟨hwarmed, ⟨m, hleast, hover, hbug⟩ | ⟨hcool, hrun, hbug⟩⟩ := hdispatch
  · -- the first monitor above the threshold ends the run
    rw [hwarmed, hover, hbug]
    have hhot : Set.Nonempty _ := ⟨m, hleast.1⟩
    refine ⟨rfl, iff_of_true rfl hhot, iff_of_true ⟨m, rfl⟩ hhot, fun m' => ?_⟩
    constructor
    · intro heq
      cases heq
      exact hleast
    · intro hm'
      rw [hleast.unique hm']
      rfl
  · rw [hwarmed, hrun, hbug]
    have hnone : ¬Set.Nonempty (tooHot s.config.livenessThreshold (warmed s.hotMonitors)) := by
      rintro ⟨m, hm⟩
      exact hcool m hm
    refine ⟨rfl, iff_of_false nofun hnone, iff_of_false ?_ hnone, fun m => iff_of_false nofun ?_⟩
    · rintro ⟨m, hm⟩
      cases hm
    · intro hm
      exact hcool m hm.1

/-- Where nothing is heated, a call that logs a decision lets the run go on. -/
theorem sameVerdict_of_push {s : Scheduler σ} {d : Decision}
    (htepid : s.config.livenessThreshold = 0 ∨
      ∀ q, Strategy.Reaches s.strategy q → Strategy.isFair q = false)
    (hpush : (s.after c).schedule = s.schedule.push d) : s.SameVerdict (s.after c) := by
  have hne : s.schedule.push d ≠ s.schedule := fun heq => by
    have hsize := congrArg Array.size heq
    simp at hsize
  have htempers := tempers_after s c
  generalize s.after c = s' at htempers hpush
  cases htempers with
  | notifies n =>
      exact absurd (hpush.symm.trans (keeps_schedule_notify s n)) hne
  | spares silent monitors choices quiet =>
      exact quiet.resolve_left fun hsame => hne (hpush.symm.trans hsame)
  | @dispatches _ s₁ silent same monitors schedule reaches current next =>
      have hidle : s₁.Tepid := by
        rcases htepid with hzero | hunfair
        · exact Or.inl (same.config ▸ hzero)
        · exact Or.inr (hunfair s₁.strategy reaches)
      exact same.trans (dispatch_of_tepid hidle current next).2

/-- Under a fair strategy and with a threshold, in every state of a run that goes on: every notice
so far has been accepted, the hot monitors are listed by name, they are those that were last
announced as hot, each has the number of scheduling decisions logged since it turned hot for the
last time as its temperature, and none is above the threshold. A further scheduling decision raises
all temperatures by one; it ends the run if and only if that brings one above the threshold, and
with a bug of the first such monitor. Without a threshold or under an unfair strategy no decision
ends a run or makes a bug. -/
theorem temperatures_exact (i : Nat) (config : Configuration) (q : σ) :
    ((∀ q', Strategy.Reaches q q' → Strategy.isFair q' = true) → 0 < config.livenessThreshold →
      ∀ calls : List Call,
        let start := new i config q
        let s := start.afterAll calls
        s.running = true →
          (∀ before c after, calls = before ++ c :: after →
            (start.afterAll before).running = true) ∧
          (s.hotMonitors.map Prod.fst).Pairwise (· < ·) ∧
          (∀ m, (∃ k, (m, k) ∈ s.hotMonitors) ↔ lastTurn? m calls = some true) ∧
          (∀ m k, (m, k) ∈ s.hotMonitors ↔ start.HotFor m k calls) ∧
          (∀ m k, (m, k) ∈ s.hotMonitors → k ≤ config.livenessThreshold) ∧
          ∀ c id, (s.after c).schedule = s.schedule.push (.schedule id) →
            let s' := s.after c
            let hot := tooHot config.livenessThreshold s'.hotMonitors
            s'.hotMonitors = warmed s.hotMonitors ∧ (s'.running = false ↔ hot.Nonempty) ∧
            ((∃ m, s'.bug = some ⟨.liveness m, overheated m⟩) ↔ hot.Nonempty) ∧
            ∀ m, s'.bug = some ⟨.liveness m, overheated m⟩ ↔ IsLeast hot m) ∧
    ((config.livenessThreshold = 0 ∨
        ∀ q', Strategy.Reaches q q' → Strategy.isFair q' = false) →
      ∀ (calls : List Call) (c : Call) (d : Decision),
        let s := (new i config q).afterAll calls
        (s.after c).schedule = s.schedule.push d →
          (s.after c).running = true ∧ (s.after c).bug = none) := by
  have hopen : ∀ calls, ((new i config q).afterAll calls).running = true →
      ((new i config q).afterAll calls).Open := fun calls hrun =>
    ((ruled_new i config q).afterAll calls).goesOn hrun
  refine ⟨fun hfair hthreshold calls => ?_, fun htepid calls c d => ?_⟩
  · intro start s hrun
    have htracks : start.Tracks calls := tracks_of_running hfair hthreshold hrun
    have hsorted := sorted_hotMonitors i config q calls
    refine ⟨?_, hsorted, fun m => ?_, htracks.hot, htracks.within, fun c id hpush => ?_⟩
    · -- a run that is over stays so
      rintro before c after rfl
      by_contra hover
      have hend := running_afterAll_of_over (Bool.eq_false_iff.mpr hover) (c :: after)
      rw [← afterAll_append] at hend
      rw [hend] at hrun
      cases hrun
    · rw [← htracks.listed]
      simp [s, start]
    · have hconfig : s.config = config := config_afterAll start calls
      rw [← hconfig] at hthreshold ⊢
      exact heated_of_push (hopen calls hrun) hsorted hthreshold
        (fun q' hq' => hfair q' ((reaches_afterAll start calls).trans hq')) hpush
  · intro s hpush
    have hrun : s.running = true := running_of_push hpush
    have hsame := sameVerdict_of_push (htepid.imp (fun hzero => ?_) fun hunfair q' hq' => ?_) hpush
    · rw [hsame.running, hsame.bug]
      exact ⟨hrun, (hopen calls hrun).bug⟩
    · rw [config_afterAll]
      exact hzero
    · exact hunfair q' ((reaches_afterAll (new i config q) calls).trans hq')

end Scheduler

namespace Replay

variable {τ : Type}

theorem fair_answer {α : Type} (r : Replay τ) (endExpected : Bool)
    (read : Decision → Except Mismatch α) (atEnd : Except StrategyError α)
    (fromSuffix : τ → Except StrategyError α × τ) :
    (r.answer endExpected read atEnd fromSuffix).2.fair = r.fair := by
  unfold answer next
  by_cases hlive : !r.handedOver ∧ r.position < r.schedule.size
  · rw [dif_pos hlive]
  · rw [dif_neg hlive]
    cases r.suffix with
    | some t => rfl
    | none => cases !r.handedOver && endExpected <;> rfl

theorem fair_of_moves [Strategy τ] {r r' : Replay τ} {e : Exchange} (h : e.Moves r r') :
    r'.fair = r.fair := by
  cases e with
  | operation choices current answer =>
      obtain rfl : (Strategy.nextOperation r choices current).2 = r' := congrArg Prod.snd h
      exact fair_answer r _ _ _ _
  | boolean max answer =>
      obtain rfl : (Strategy.nextBoolean r max).2 = r' := congrArg Prod.snd h
      exact fair_answer r _ _ _ _
  | integer max answer =>
      obtain rfl : (Strategy.nextInteger r max).2 = r' := congrArg Prod.snd h
      exact fair_answer r _ _ _ _
  | send sender target event delivery =>
      obtain rfl : (Strategy.onSend r sender target event).2 = r' := congrArg Prod.snd h
      rfl
  | notice n =>
      obtain rfl : Strategy.observe r n = r' := h
      rfl
  | bound _ | fairness _ => rw [h.2]
  | logged d =>
      obtain rfl : r' = r := h
      rfl

/-- A replay is fair throughout a run or not at all. -/
theorem isFair_of_reaches [Strategy τ] {r r' : Replay τ} (h : Strategy.Reaches r r') :
    Strategy.isFair r' = Strategy.isFair r := by
  induction h with
  | refl => rfl
  | step _ hmoves ih => exact (fair_of_moves hmoves).trans ih

end Replay

namespace Scheduler

/-- A monitor turns hot before the first of two decisions. -/
def hotMonitorCalls : List Call :=
  [.create ⟨0⟩ "harness", .notify (.monitored "M" ⟨0⟩ true),
    .yield ⟨7, ⟨0⟩⟩ .yield .operation ⟨0⟩]

/-- The fair schedule of two decisions. -/
def twoTurns : Replay RandomWalk :=
  .ofSchedule #[.schedule ⟨0⟩, .schedule ⟨0⟩] true none

theorem temperatures_exact_of_hotMonitorCalls :
    let start := new 7 { livenessThreshold := 1 } twoTurns
    let s := start.afterAll hotMonitorCalls
    let c := Call.yield ⟨7, ⟨0⟩⟩ .yield .operation ⟨0⟩
    let loose := (new 7 { livenessThreshold := 0 } twoTurns).afterAll hotMonitorCalls
    start.HotFor "M" 1 hotMonitorCalls ∧ s.running = true ∧ (s.after c).running = false ∧
      (s.after c).bug = some ⟨.liveness "M", overheated "M"⟩ ∧
      IsLeast (tooHot 1 (s.after c).hotMonitors) "M" ∧
      (loose.after c).running = true ∧ (loose.after c).bug = none := by
  intro start s c loose
  have hfair : ∀ r, Strategy.Reaches twoTurns r → Strategy.isFair r = true :=
    fun r hr => Replay.isFair_of_reaches hr
  have hrun : s.running = true := by decide +kernel
  have hmem : ("M", 1) ∈ s.hotMonitors := by decide +kernel
  have hpush : (s.after c).schedule = s.schedule.push (.schedule ⟨0⟩) := by decide +kernel
  have hbug : (s.after c).bug = some ⟨.liveness "M", overheated "M"⟩ := by decide +kernel
  have hloose : (loose.after c).schedule = loose.schedule.push (.schedule ⟨0⟩) := by
    decide +kernel
  obtain ⟨-, -, -, hfor, -, hstep⟩ :=
    (temperatures_exact 7 { livenessThreshold := 1 } twoTurns).1 hfair (by decide)
      hotMonitorCalls hrun
  obtain ⟨-, hends, -, hleast⟩ := hstep c ⟨0⟩ hpush
  have hfirst := (hleast "M").mp hbug
  exact ⟨(hfor "M" 1).mp hmem, hrun, hends.mpr ⟨"M", hfirst.1⟩, hbug, hfirst,
    (temperatures_exact 7 { livenessThreshold := 0 } twoTurns).2 (Or.inl rfl) hotMonitorCalls c
      (.schedule ⟨0⟩) hloose⟩

end Scheduler

end Interleave
