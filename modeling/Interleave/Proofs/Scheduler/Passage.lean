import Interleave.Proofs.Scheduler.Dialogue

/-!
# Passages of a run

A `Passage s l s'` is a part of a run from state `s` to state `s'` with the dialogue `l`, and says
what every such part has in common: a run without an error has had legal answers only, each of
which is logged; once an answer contains no decision, or once the run is over for any other reason,
nothing more is asked, told or logged; a strategy is always shown distinct operations; and the first
bug stays. Every call is a passage, and passages in a row make a passage, so that whole runs are.
-/

namespace Interleave

namespace Scheduler

variable {σ : Type}

/-- A part of a run, from one state to another, with its dialogue. -/
structure Passage (s : Scheduler σ) (l : List Exchange) (s' : Scheduler σ) : Prop where
  /-- An error stays, and without one every answer is legal. -/
  error : s'.error = none → s.error = none ∧ ∀ e ∈ l, e.Legal
  /-- A run that is not cut off has never met the bound. -/
  bound : s'.boundReached = false → s.boundReached = false ∧ .bound true ∉ l
  /-- Nothing is said once the run is over. -/
  silent : s.running = false → l = [] ∧ s'.running = false
  /-- The decisions answered are the decisions logged. -/
  logged : s'.error = none → (logged l).map Decision.plain = verdicts l
  /-- An answer without a decision ends the run. -/
  declined : ∀ before e after, l = before ++ e :: after → e.isDeclined →
    s'.running = false ∧ verdicts after = []
  /-- Operations stay distinct, and so are those shown to the strategy. -/
  distinct : (s.slots.map Slot.id).Nodup → (s'.slots.map Slot.id).Nodup ∧
    ∀ choices current answer, .operation choices current answer ∈ l →
      (choices.map Snapshot.id).Nodup
  /-- The first bug stays. -/
  bug : ∀ bug, s.bug = some bug → s'.bug = some bug

/-- A change of the state that says nothing to the strategy and neither forgets an error nor starts
the run again. -/
structure Quiet (s s' : Scheduler σ) : Prop where
  error : s'.error = none → s.error = none
  bound : s'.boundReached = false → s.boundReached = false
  stays : s.running = false → s'.running = false
  distinct : (s.slots.map Slot.id).Nodup → (s'.slots.map Slot.id).Nodup
  bug : ∀ bug, s.bug = some bug → s'.bug = some bug

theorem Quiet.refl (s : Scheduler σ) : s.Quiet s :=
  ⟨fun h => h, fun h => h, fun h => h, fun h => h, fun _ h => h⟩

theorem Quiet.trans {s s' s'' : Scheduler σ} (h : s.Quiet s') (h' : s'.Quiet s'') : s.Quiet s'' :=
  ⟨fun he => h.error (h'.error he), fun hb => h.bound (h'.bound hb),
    fun hr => h'.stays (h.stays hr), fun hd => h'.distinct (h.distinct hd),
    fun bug hbug => h'.bug bug (h.bug bug hbug)⟩

theorem Quiet.passage {s s' : Scheduler σ} (h : s.Quiet s') : s.Passage [] s' where
  error he := ⟨h.error he, by simp⟩
  bound hb := ⟨h.bound hb, by simp⟩
  silent hr := ⟨rfl, h.stays hr⟩
  logged _ := rfl
  declined before e after hl := by simp at hl
  distinct hd := ⟨h.distinct hd, by simp⟩
  bug := h.bug

theorem Passage.trans {s s' s'' : Scheduler σ} {l l' : List Exchange} (h : s.Passage l s')
    (h' : s'.Passage l' s'') : s.Passage (l ++ l') s'' where
  error he := by
    obtain ⟨he', hlegal'⟩ := h'.error he
    obtain ⟨hs, hlegal⟩ := h.error he'
    refine ⟨hs, fun e hmem => ?_⟩
    rcases List.mem_append.mp hmem with hmem | hmem
    · exact hlegal e hmem
    · exact hlegal' e hmem
  bound hb := by
    obtain ⟨hb', hnot'⟩ := h'.bound hb
    obtain ⟨hs, hnot⟩ := h.bound hb'
    refine ⟨hs, fun hmem => ?_⟩
    rcases List.mem_append.mp hmem with hmem | hmem
    · exact hnot hmem
    · exact hnot' hmem
  silent hr := by
    obtain ⟨rfl, hr'⟩ := h.silent hr
    exact h'.silent hr'
  logged he := by
    simp only [logged_append, verdicts_append, List.map_append]
    rw [h.logged (h'.error he).1, h'.logged he]
  declined before e after hl hdecl := by
    rcases List.append_eq_append_iff.mp hl with ⟨rest, hbefore, hl'⟩ | ⟨rest, hl₁, hl'⟩
    · -- the answer belongs to the second part
      exact h'.declined rest e after hl' hdecl
    · cases rest with
      | nil =>
          simp only [List.nil_append] at hl'
          exact h'.declined [] e after hl'.symm hdecl
      | cons e' rest =>
          -- the answer belongs to the first part, and the second part is silent
          simp only [List.cons_append, List.cons.injEq] at hl'
          obtain ⟨rfl, rfl⟩ := hl'
          obtain ⟨hr, hverdicts⟩ := h.declined before e rest hl₁ hdecl
          obtain ⟨rfl, hr'⟩ := h'.silent hr
          exact ⟨hr', by simpa using hverdicts⟩
  distinct hd := by
    obtain ⟨hd', hshown⟩ := h.distinct hd
    obtain ⟨hd'', hshown'⟩ := h'.distinct hd'
    refine ⟨hd'', fun choices current answer hmem => ?_⟩
    rcases List.mem_append.mp hmem with hmem | hmem
    · exact hshown choices current answer hmem
    · exact hshown' choices current answer hmem
  bug bug hbug := h'.bug bug (h.bug bug hbug)

/-- A single exchange that is neither a request nor a log entry. -/
theorem Quiet.passage_single {s s' : Scheduler σ} (h : s.Quiet s') (hrun : s.running = true)
    (e : Exchange) (hlegal : e.Legal) (hbound : e ≠ .bound true) (hlog : e.logged? = none)
    (hverdict : e.verdict? = none) (hdecl : e.isDeclined = false)
    (hop : ∀ choices current answer, e ≠ .operation choices current answer) :
    s.Passage [e] s' where
  error he := ⟨h.error he, by simpa using hlegal⟩
  bound hb := ⟨h.bound hb, by simpa using Ne.symm hbound⟩
  silent hr := by simp [hrun] at hr
  logged _ := by simp [Interleave.logged, verdicts, hlog, hverdict]
  declined before e' after hl hdecl' := by
    have hmem : e' ∈ [e] := by
      rw [hl]
      simp
    rw [List.mem_singleton.mp hmem, hdecl] at hdecl'
    cases hdecl'
  distinct hd := by
    refine ⟨h.distinct hd, fun choices current answer hmem => ?_⟩
    exact absurd (List.mem_singleton.mp hmem).symm (hop choices current answer)
  bug := h.bug

/-! ## Calls that say nothing -/

theorem ids_snapshots (s : Scheduler σ) : s.snapshots.map Snapshot.id = s.slots.map Slot.id := by
  simp only [snapshots, List.map_map]
  rfl

theorem ids_updateSlot (s : Scheduler σ) (id : OperationId) {f : Slot → Slot}
    (hf : ∀ slot, (f slot).id = slot.id) :
    (s.updateSlot id f).slots.map Slot.id = s.slots.map Slot.id := by
  simp only [updateSlot, List.map_map]
  refine List.map_congr_left fun slot _ => ?_
  by_cases hid : slot.id = id
  · simp [hid, hf]
  · simp [hid]

theorem quiet_updateSlot (s : Scheduler σ) (id : OperationId) {f : Slot → Slot}
    (hf : ∀ slot, (f slot).id = slot.id) : s.Quiet (s.updateSlot id f) where
  error h := h
  bound h := h
  stays h := h
  distinct h := by
    rw [ids_updateSlot s id hf]
    exact h
  bug _ h := h

theorem quiet_stop (s : Scheduler σ) : s.Quiet s.stop where
  error h := h
  bound h := h
  stays _ := rfl
  distinct h := by
    have hids : s.stop.slots.map Slot.id = s.slots.map Slot.id := by
      simp only [stop, List.map_map]
      rfl
    rwa [hids]
  bug _ h := h

theorem quiet_recordBug (s : Scheduler σ) (bug : Bug) : s.Quiet (s.recordBug bug) :=
  ⟨fun h => h, fun h => h, fun h => h, fun h => h, fun first h => by simp [recordBug, h]⟩

theorem quiet_fail (s : Scheduler σ) (kind : BugKind) (message : String) :
    s.Quiet (s.fail kind message) :=
  (quiet_recordBug s _).trans (quiet_stop _)

theorem quiet_explored (s : Scheduler σ) : s.Quiet s.explored := by
  have hmark : s.Quiet { s with fullyExplored := true } :=
    ⟨fun h => h, fun h => h, fun h => h, fun h => h, fun _ h => h⟩
  exact hmark.trans (quiet_stop _)

theorem quiet_reportAssertion (s : Scheduler σ) (text : String) :
    s.Quiet (s.reportAssertion text) :=
  (quiet_recordBug s _).trans ⟨fun h => h, fun h => h, fun _ => rfl, fun h => h, fun _ h => h⟩

theorem error_abort (s : Scheduler σ) (e : StrategyError) : (s.abort e).error ≠ none := by
  simp only [abort, stop]
  cases s.error <;> simp

theorem quiet_create (s : Scheduler σ) (id : OperationId) (name : String) :
    s.Quiet (s.create id name).2 := by
  rcases create_cases s id name with hknown | ⟨hnone, hfresh⟩
  · rw [hknown]
    exact Quiet.refl s
  · rw [hfresh]
    refine ⟨fun h => h, fun h => h, fun h => h, fun h => ?_, fun _ h => h⟩
    -- a slot is only added for an identity that has none
    rw [(ids_register s id name).nodup_iff, List.nodup_cons]
    exact ⟨slot?_eq_none_iff.mp hnone, h⟩

theorem quiet_start (s : Scheduler σ) (t : Token) : s.Quiet (s.start t).2 := by
  rcases start_cases s t with ⟨slot, -, -, hstart⟩ | ⟨-, hfail⟩
  · rw [hstart]
    exact quiet_updateSlot s _ fun _ => rfl
  · rw [hfail]
    exact quiet_fail s _ _

theorem quiet_unblock (s : Scheduler σ) (id : OperationId) : s.Quiet (s.unblock id) :=
  quiet_updateSlot s id Slot.id_unblock

theorem quiet_handOver (s : Scheduler σ) (current next : OperationId) :
    s.Quiet (s.handOver current next).2 := by
  rcases handOver_cases s current next with hstay | ⟨-, hpass⟩
  · rw [hstay]
    exact Quiet.refl s
  · rw [hpass]
    have h₁ := quiet_updateSlot s current (f := fun slot => { slot with active := false })
      fun _ => rfl
    have h₂ := quiet_updateSlot (s.updateSlot current fun slot => { slot with active := false })
      next (f := fun slot => { slot with active := true }) fun _ => rfl
    exact (h₁.trans h₂).trans ⟨fun h => h, fun h => h, fun h => h, fun h => h, fun _ h => h⟩

/-- A request whose answer ends the run with an error. -/
theorem passage_abort {s : Scheduler σ} (hrun : s.running = true) (error : StrategyError)
    {e : Exchange} (hbound : e ≠ .bound true) (hdecl : e.isDeclined = false)
    (hshown : ∀ choices current answer, e = .operation choices current answer →
      choices.map Snapshot.id = s.slots.map Slot.id) :
    s.Passage [e] (s.abort error) where
  error he := absurd he (error_abort s error)
  bound hb := ⟨hb, by simpa using Ne.symm hbound⟩
  silent hr := by simp [hrun] at hr
  logged he := absurd he (error_abort s error)
  declined before e' after hl hdecl' := by
    have hmem : e' ∈ [e] := by
      rw [hl]
      simp
    rw [List.mem_singleton.mp hmem, hdecl] at hdecl'
    cases hdecl'
  distinct hd := by
    refine ⟨(quiet_stop { s with error := s.error.or (some error) }).distinct hd, ?_⟩
    intro choices current answer hmem
    rw [hshown choices current answer (List.mem_singleton.mp hmem).symm]
    exact hd
  bug _ h := h

variable [Strategy σ]

theorem quiet_heat (s : Scheduler σ) : s.Quiet s.heat := by
  rcases heat_cases s with hheat | hheat
  · rw [hheat]
    exact Quiet.refl s
  · rw [hheat]
    exact ⟨fun h => h, fun h => h, fun h => h, fun h => h, fun _ h => h⟩

theorem quiet_dispatch (s : Scheduler σ) (current next : OperationId) :
    s.Quiet (s.dispatch current next).2 := by
  have hlog : s.Quiet { s with schedule := s.schedule.push (.schedule next) } :=
    ⟨fun h => h, fun h => h, fun h => h, fun h => h, fun _ h => h⟩
  refine (hlog.trans (quiet_heat _)).trans ?_
  rcases dispatch_cases s current next with ⟨monitor, -, hend⟩ | hpass
  · rw [hend]
    exact quiet_fail _ _ _
  · rw [hpass]
    exact quiet_handOver _ _ _

theorem quiet_exhaust (s : Scheduler σ) (choices : List Snapshot) :
    s.Quiet (s.exhaust choices) := by
  rcases exhaust_cases s choices with ⟨names, -, hend⟩ | ⟨monitor, -, hend⟩ | hend
  · rw [hend]
    exact quiet_fail _ _ _
  · rw [hend]
    exact quiet_fail _ _ _
  · rw [hend]
    exact quiet_explored s

/-! ## Calls as passages -/

/-- A run that is cut off asks about bound and fairness only and is marked as cut off. -/
theorem passage_cutOff {s : Scheduler σ} (hrun : s.running = true) :
    s.Passage [.bound true, .fairness (Strategy.isFair s.strategy)] s.cutOff := by
  have hcut : s.cutOff.boundReached = true ∧ s.cutOff.error = s.error ∧
      s.cutOff.slots = s.slots.map Slot.kill ∧
        ∀ bug, s.bug = some bug → s.cutOff.bug = some bug := by
    rcases cutOff_cases s with ⟨message, hcut⟩ | hcut
    · rw [hcut]
      exact ⟨rfl, rfl, rfl, fun bug hbug => (quiet_fail _ _ _).bug bug hbug⟩
    · rw [hcut]
      exact ⟨rfl, rfl, rfl, fun _ h => h⟩
  obtain ⟨hreached, herror, hslots, hbug⟩ := hcut
  refine ⟨fun he => ⟨herror ▸ he, by simp [Exchange.Legal]⟩, fun hb => ?_, fun hr => ?_,
    fun _ => rfl, fun before e after hl hdecl => ?_, fun hd => ⟨?_, by simp⟩, hbug⟩
  · rw [hreached] at hb
    cases hb
  · rw [hrun] at hr
    cases hr
  · have hmem : e ∈ [Exchange.bound true, .fairness (Strategy.isFair s.strategy)] := by
      rw [hl]
      simp
    simp only [List.mem_cons, List.not_mem_nil, or_false] at hmem
    rcases hmem with rfl | rfl <;> cases hdecl
  · rw [hslots, List.map_map]
    exact hd

/-- A suspension point that is refused. -/
theorem passage_of_refused {s s' : Scheduler σ} {t : Token} (h : s.refusal? t = some s') :
    s.Passage (s.admission t) s' := by
  unfold admission
  cases refuses_of_refused h with
  | ended hrun =>
      rw [hrun]
      exact (quiet_stop s).passage
  | misused hrun hmisuse =>
      rw [hrun, hmisuse]
      exact (quiet_fail s _ _).passage
  | bound hrun hproper hreached =>
      rw [hrun, hproper, hreached]
      exact passage_cutOff hrun

theorem admission_of_admitted {s : Scheduler σ} {t : Token} (h : s.refusal? t = none) :
    s.admission t = [.bound false] := by
  obtain ⟨hrun, hmis, hbound⟩ := admitted_of_refusal?_eq_none h
  simp [admission, hrun, hmis, hbound]

theorem passage_of_admitted {s : Scheduler σ} {t : Token} (h : s.refusal? t = none) :
    s.Passage (s.admission t) s := by
  rw [admission_of_admitted h]
  exact (Quiet.refl s).passage_single (admitted_of_refusal?_eq_none h).1 (.bound false) trivial
    (by simp) rfl rfl rfl (by simp)

/-- No operation is named: the run is over, and only fairness is asked about. -/
theorem passage_exhaust {s : Scheduler σ} (hrun : s.running = true) (current : OperationId) :
    s.Passage [.operation s.snapshots current (.ok none), .fairness (Strategy.isFair s.strategy)]
      (s.exhaust s.snapshots) where
  error he := by
    refine ⟨(quiet_exhaust s s.snapshots).error he, fun e hmem => ?_⟩
    simp only [List.mem_cons, List.not_mem_nil, or_false] at hmem
    rcases hmem with rfl | rfl
    · exact ⟨none, rfl, by simp⟩
    · trivial
  bound hb := ⟨(quiet_exhaust s s.snapshots).bound hb, by simp⟩
  silent hr := by simp [hrun] at hr
  logged _ := rfl
  declined before e after hl _ := by
    refine ⟨(stopped_exhaust s s.snapshots).running, ?_⟩
    -- neither of the two exchanges is followed by a decision
    rcases before with _ | ⟨_, before⟩
    · simp only [List.nil_append, List.cons.injEq] at hl
      obtain ⟨-, rfl⟩ := hl
      rfl
    · simp only [List.cons_append, List.cons.injEq] at hl
      obtain ⟨-, hl⟩ := hl
      rcases before with _ | ⟨_, before⟩
      · simp only [List.nil_append, List.cons.injEq] at hl
        obtain ⟨-, rfl⟩ := hl
        rfl
      · simp at hl
  distinct hd := by
    refine ⟨(quiet_exhaust s s.snapshots).distinct hd, fun choices current' answer hmem => ?_⟩
    simp only [List.mem_cons, Exchange.operation.injEq, List.not_mem_nil, or_false,
      reduceCtorEq] at hmem
    obtain ⟨rfl, -, -⟩ := hmem
    rwa [ids_snapshots]
  bug := (quiet_exhaust s s.snapshots).bug

/-- An enabled operation is named and gets control. -/
theorem passage_dispatch {s : Scheduler σ} (hrun : s.running = true) (current : OperationId)
    {next : OperationId} (hlegal : ∃ op ∈ s.snapshots, op.id = next ∧ op.enabled = true) :
    s.Passage [.operation s.snapshots current (.ok (some next)), .logged (.schedule next),
      .fairness (Strategy.isFair s.strategy)] (s.dispatch current next).2 where
  error he := by
    refine ⟨(quiet_dispatch s current next).error he, fun e hmem => ?_⟩
    simp only [List.mem_cons, List.not_mem_nil, or_false] at hmem
    rcases hmem with rfl | rfl | rfl
    · exact ⟨some next, rfl, fun id hid => Option.some.inj hid ▸ hlegal⟩
    · trivial
    · trivial
  bound hb := ⟨(quiet_dispatch s current next).bound hb, by simp⟩
  silent hr := by simp [hrun] at hr
  logged _ := rfl
  declined before e after hl hdecl := by
    have hmem : e ∈ [Exchange.operation s.snapshots current (.ok (some next)),
        .logged (.schedule next), .fairness (Strategy.isFair s.strategy)] := by
      rw [hl]
      simp
    simp only [List.mem_cons, List.not_mem_nil, or_false] at hmem
    rcases hmem with rfl | rfl | rfl <;> cases hdecl
  distinct hd := by
    refine ⟨(quiet_dispatch s current next).distinct hd, fun choices current' answer hmem => ?_⟩
    simp only [List.mem_cons, Exchange.operation.injEq, List.not_mem_nil, or_false,
      reduceCtorEq] at hmem
    obtain ⟨rfl, -, -⟩ := hmem
    rwa [ids_snapshots]
  bug := (quiet_dispatch s current next).bug

/-- The strategy's answer to a yield, and what is made of it. -/
theorem passage_resolve (s : Scheduler σ) (hrun : s.running = true) (current : OperationId)
    (answer : Answer OperationId) :
    s.Passage (.operation s.snapshots current answer :: s.resolveSaid s.snapshots answer)
      (s.resolve current s.snapshots answer).2 := by
  have hshown : ∀ choices current' answer', Exchange.operation s.snapshots current answer =
      .operation choices current' answer' → choices.map Snapshot.id = s.slots.map Slot.id := by
    intro choices current' answer' heq
    cases heq
    exact ids_snapshots s
  rcases answer with e | _ | next
  · exact passage_abort hrun e (by simp) rfl hshown
  · exact passage_exhaust hrun current
  · by_cases hlegal : (s.snapshots.any fun op => op.id = next && op.enabled) = true
    · rw [resolveSaid_of_legal hlegal, resolve_of_legal hlegal]
      exact passage_dispatch hrun current (by simpa using hlegal)
    · rw [resolveSaid_of_illegal hlegal, resolve_of_illegal hlegal]
      exact passage_abort hrun (.notEnabled next) (by simp) rfl hshown

/-- A yield is a passage. -/
theorem passage_yield (s : Scheduler σ) (t : Token) (kind : ActionKind) (targetKind : TargetKind)
    (target : OperationId) :
    s.Passage (s.yieldSaid t ⟨kind, targetKind, target, none⟩)
      (s.yield t kind targetKind target).2 := by
  cases href : s.refusal? t with
  | some s' =>
      rw [yieldSaid_of_refused href, yield_of_refused href]
      exact passage_of_refused href
  | none =>
      rw [yieldSaid_of_admitted href, yield_of_admitted href]
      -- admission, the declaration and the question, the answer: three passages in a row
      let next : Declared := ⟨kind, targetKind, target, none⟩
      have hdeclare : s.Quiet (s.asked t next).2 :=
        (quiet_updateSlot s t.operation (f := (·.declare next)) fun _ => rfl).trans
          ⟨fun h => h, fun h => h, fun h => h, fun h => h, fun _ h => h⟩
      have hrun : (s.asked t next).2.running = true := (admitted_of_refusal?_eq_none href).1
      have hresolve := passage_resolve (s.asked t next).2 hrun t.operation (s.asked t next).1
      exact (passage_of_admitted href).trans (hdeclare.passage.trans hresolve)

/-- What a request for a value exchanges: an answer that is logged as it is, or is declined, or is
an error once it has been checked. -/
structure ValueExchange {α : Type} (exchange : Answer α → Exchange) (check : Answer α → Answer α)
    (toDecision : α → Decision) : Prop where
  bound : ∀ answer, exchange answer ≠ .bound true
  operation : ∀ answer choices current other, exchange answer ≠ .operation choices current other
  unlogged : ∀ answer, (exchange answer).logged? = none
  failed : ∀ answer e, check answer = .error e → (exchange answer).isDeclined = false
  declined : ∀ answer, check answer = .ok none →
    (exchange answer).Legal ∧ (exchange answer).verdict? = none
  decided : ∀ answer value, check answer = .ok (some value) →
    (exchange answer).Legal ∧ (exchange answer).isDeclined = false ∧
      (exchange answer).verdict? = some (toDecision value).plain

theorem passage_settle {α : Type} {exchange : Answer α → Exchange} {check : Answer α → Answer α}
    {toDecision : α → Decision} (hx : ValueExchange exchange check toDecision) (s : Scheduler σ)
    (hrun : s.running = true) (t : Token) (toChoice : α → Choice) (answer : Answer α) :
    s.Passage (exchange answer :: settleSaid t toChoice toDecision (check answer))
      (s.settle t toChoice toDecision (check answer)).2 := by
  -- an answer that fails the check ends the run, no value explores it, a value is logged
  rcases hcheck : check answer with e | _ | value
  · exact passage_abort hrun e (hx.bound answer) (hx.failed answer e hcheck)
      fun choices current other heq => absurd heq (hx.operation answer choices current other)
  · obtain ⟨hlegal, hverdict⟩ := hx.declined answer hcheck
    have hquiet := quiet_explored s
    refine ⟨fun he => ⟨he, by simpa [settleSaid] using hlegal⟩,
      fun hb => ⟨hb, by simpa [settleSaid] using Ne.symm (hx.bound answer)⟩,
      fun hr => by simp [hrun] at hr,
      fun _ => by simp [settleSaid, Interleave.logged, verdicts, hx.unlogged, hverdict],
      fun before e after hl _ => ⟨rfl, ?_⟩, fun hd => ⟨hquiet.distinct hd, ?_⟩, hquiet.bug⟩
    · rcases before with _ | ⟨_, before⟩
      · simp only [settleSaid, List.nil_append, List.cons.injEq] at hl
        obtain ⟨-, rfl⟩ := hl
        rfl
      · simp [settleSaid] at hl
    · intro choices current other hmem
      exact absurd (List.mem_singleton.mp hmem).symm (hx.operation answer choices current other)
  · obtain ⟨hlegal, hdecl, hverdict⟩ := hx.decided answer value hcheck
    refine ⟨fun he => ⟨he, ?_⟩, fun hb => ⟨hb, ?_⟩, fun hr => by simp [hrun] at hr, fun _ => ?_,
      fun before e after hl hdecl' => ?_, fun hd => ⟨hd, ?_⟩, fun _ h => h⟩
    · intro e he
      simp only [settleSaid, List.mem_cons, List.not_mem_nil, or_false] at he
      rcases he with rfl | rfl | rfl
      · exact hlegal
      · trivial
      · trivial
    · simpa [settleSaid] using Ne.symm (hx.bound answer)
    · simp only [settleSaid, Interleave.logged, verdicts, List.filterMap_cons, hx.unlogged,
        hverdict]
      rfl
    · have hmem : e ∈ exchange answer :: settleSaid t toChoice toDecision (.ok (some value)) := by
        rw [hl]
        simp
      simp only [settleSaid, List.mem_cons, List.not_mem_nil, or_false] at hmem
      rcases hmem with rfl | rfl | rfl
      · rw [hdecl] at hdecl'
        cases hdecl'
      · cases hdecl'
      · cases hdecl'
    · intro choices current other hmem
      simp only [settleSaid, List.mem_cons, List.not_mem_nil, or_false, reduceCtorEq] at hmem
      exact absurd hmem.symm (hx.operation answer choices current other)

theorem passage_requestValue {α : Type} {exchange : Answer α → Exchange}
    {check : Answer α → Answer α} {toDecision : α → Decision}
    (hx : ValueExchange exchange check toDecision) (s : Scheduler σ) (t : Token)
    (request : σ → Answer α × σ) (toChoice : α → Choice) :
    s.Passage (s.valueSaid t request exchange check toChoice toDecision)
      (s.requestValue t request check toChoice toDecision).2 := by
  cases href : s.refusal? t with
  | some s' =>
      rw [valueSaid_of_refused href, requestValue_of_refused href]
      exact passage_of_refused href
  | none =>
      rw [valueSaid_of_admitted href, requestValue_of_admitted href]
      have hrun := (admitted_of_refusal?_eq_none href).1
      have hasked : s.Quiet { s with strategy := (request s.strategy).2 } :=
        ⟨fun h => h, fun h => h, fun h => h, fun h => h, fun _ h => h⟩
      have hsettle := passage_settle hx { s with strategy := (request s.strategy).2 } hrun t
        toChoice (request s.strategy).1
      exact (passage_of_admitted href).trans (hasked.passage.trans hsettle)

theorem plain_booleanDecision (fairness : Option String) (b : Bool) :
    (booleanDecision fairness b).plain = .boolean b := by
  cases fairness <;> rfl

theorem valueExchange_boolean (max : UInt32) (fairness : Option String) :
    ValueExchange (.boolean max) (fun a => a) (booleanDecision fairness) where
  bound _ := by simp
  operation _ _ _ _ := by simp
  unlogged _ := rfl
  failed answer e h := by
    subst h
    rfl
  declined answer h := by
    subst h
    exact ⟨⟨none, rfl⟩, rfl⟩
  decided answer b h := by
    subst h
    exact ⟨⟨some b, rfl⟩, rfl, by rw [plain_booleanDecision]; rfl⟩

theorem valueExchange_integer (max : UInt32) :
    ValueExchange (.integer max) (checkRange max) .integer where
  bound _ := by simp
  operation _ _ _ _ := by simp
  unlogged _ := rfl
  failed answer e h := by
    rcases answer with _ | _ | n
    · rfl
    · cases h
    · rfl
  declined answer h := by
    rcases answer with _ | _ | n
    · cases h
    · exact ⟨⟨none, rfl, by simp⟩, rfl⟩
    · simp only [checkRange] at h
      split at h <;> cases h
  decided answer n h := by
    rcases answer with _ | _ | n'
    · cases h
    · cases h
    · simp only [checkRange] at h
      split at h
      · rename_i hrange
        cases h
        exact ⟨⟨some n, rfl, by simpa using hrange⟩, rfl, rfl⟩
      · cases h

theorem passage_nextBoolean (s : Scheduler σ) (t : Token) (max : UInt32)
    (fairness : Option String) :
    s.Passage (s.booleanSaid t max fairness) (s.nextBoolean t max fairness).2 :=
  passage_requestValue (valueExchange_boolean max fairness) s t (Strategy.nextBoolean · max)
    .boolean

theorem passage_nextInteger (s : Scheduler σ) (t : Token) (max : UInt32) :
    s.Passage (s.integerSaid t max) (s.nextInteger t max).2 :=
  passage_requestValue (valueExchange_integer max) s t (Strategy.nextInteger · max) .integer

theorem passage_notify (s : Scheduler σ) (n : Notice) :
    s.Passage (s.noticeSaid n) (s.notify n) := by
  cases hrun : s.running with
  | true =>
      rw [noticeSaid_of_running hrun, notify_of_running hrun]
      have hquiet : s.Quiet { s with
          hotMonitors := s.monitorsAfter n, strategy := Strategy.observe s.strategy n } :=
        ⟨fun h => h, fun h => h, fun h => h, fun h => h, fun _ h => h⟩
      exact hquiet.passage_single hrun (.notice n) trivial (by simp) rfl rfl rfl (by simp)
  | false =>
      rw [noticeSaid_of_over hrun, notify_of_over hrun]
      exact (Quiet.refl s).passage

theorem passage_send (s : Scheduler σ) (sender target : OperationId) (event : Event) :
    s.Passage (s.sendSaid sender target event) (s.send sender target event).2 := by
  cases hrun : s.running with
  | true =>
      rw [sendSaid_of_running hrun, send_of_running hrun]
      have hquiet : s.Quiet { s with
          strategy := (Strategy.onSend s.strategy sender target event).2 } :=
        ⟨fun h => h, fun h => h, fun h => h, fun h => h, fun _ h => h⟩
      exact hquiet.passage_single hrun (.send sender target event _) trivial (by simp) rfl rfl rfl
        (by simp)
  | false =>
      rw [sendSaid_of_over hrun, send_of_over hrun]
      exact (Quiet.refl s).passage

end Scheduler

end Interleave
