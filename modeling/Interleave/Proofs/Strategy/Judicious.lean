import Interleave.Minimization.Session
import Interleave.Proofs.Strategy.Walking
import Interleave.Strategy.Recorded

/-!
# Judicious strategies

A strategy is `Judicious` if in every state it names enabled operations only, declines to name one
only where none is enabled, never declines to choose a value, and does not claim an operation to be
disabled by itself. A random walk is judicious, and replays, minimizing sessions and recordings are
so if the strategies are to which they leave what they do not decide themselves
(`BuiltIn.judicious`). `Ranged` is said of single states: the integers of such a state are below
their bound. A random walk is always ranged, and a session of random walks whenever it is not
replaying its input (`DrawsIntegers.ranged`).
-/

namespace Interleave

open Minimization

/-! ### Answers -/

/-- The answer is a good decision, or none where nothing is left to decide, or an error, which must
not be that of an operation that is not enabled. -/
inductive Admissible {α : Type} (good : α → Prop) (dry : Prop) : Answer α → Prop
  | decided {a : α} (h : good a) : Admissible good dry (.ok (some a))
  | declined (h : dry) : Admissible good dry (.ok none)
  | failed {e : StrategyError} (h : ∀ id, e ≠ .notEnabled id) : Admissible good dry (.error e)

/-- An enabled operation of the given ones has the identity. -/
def EnabledIn (choices : List Snapshot) (id : OperationId) : Prop :=
  ∃ op ∈ choices, op.id = id ∧ op.enabled = true

/-- No operation is enabled. -/
def AllDisabled (choices : List Snapshot) : Prop :=
  ∀ op ∈ choices, op.enabled = false

variable {α : Type} {good : α → Prop} {dry : Prop}

theorem Admissible.good_of_some {a : α} (h : Admissible good dry (.ok (some a))) : good a := by
  cases h with
  | decided ha => exact ha

theorem Admissible.dry_of_none (h : Admissible good dry (.ok none)) : dry := by
  cases h with
  | declined hdry => exact hdry

/-- The first enabled operation is a good decision, and there is one unless none is enabled. -/
theorem admissible_firstEnabled (choices : List Snapshot) :
    Admissible (EnabledIn choices) (AllDisabled choices)
      (.ok ((choices.find? (·.enabled)).map (·.id))) := by
  cases hfound : choices.find? (·.enabled) with
  | none =>
      refine .declined fun op hop => ?_
      exact Bool.eq_false_iff.mpr (List.find?_eq_none.mp hfound op hop)
  | some op => exact .decided ⟨op, List.mem_of_find?_eq_some hfound, rfl, List.find?_some hfound⟩

/-- Every request of a strategy is answered as it should be, in every state. -/
structure Strategy.Judicious (σ : Type) [Strategy σ] : Prop where
  operation (s : σ) (choices : List Snapshot) (current : OperationId) :
    Admissible (EnabledIn choices) (AllDisabled choices)
      (Strategy.nextOperation s choices current).1
  boolean (s : σ) (max : UInt32) :
    Admissible (fun _ => True) False (Strategy.nextBoolean s max).1
  integer (s : σ) (max : UInt32) :
    Admissible (fun _ => True) False (Strategy.nextInteger s max).1

/-- The integers of a state are below their bound, where a bound of 0 counts as 1. -/
def Strategy.Ranged {σ : Type} [Strategy σ] (s : σ) : Prop :=
  ∀ max, Admissible (isInRange · max = true) False (Strategy.nextInteger s max).1

/-! ### Random walks -/

theorem Walk.judicious {γ : Type} [Generator γ] : Strategy.Judicious (Walk γ) where
  operation w choices current := by
    have hobliging := w.obliging choices current
    rcases hask : Strategy.nextOperation w choices current with ⟨answer, w'⟩
    rw [hask] at hobliging
    obtain ⟨⟨id?, rfl, hlegal⟩, hdecided, -⟩ := hobliging
    cases id? with
    | none => exact .declined hdecided
    | some id => exact .decided (hlegal id rfl)
  boolean _ _ := .decided trivial
  integer _ _ := .decided trivial

theorem Walk.ranged {γ : Type} [Generator γ] (w : Walk γ) : Strategy.Ranged w := by
  intro max
  refine .decided ?_
  show isInRange (w.roll max).1 max = true
  rw [roll]
  by_cases hmax : max = 0
  · rw [if_pos hmax, hmax]
    rfl
  · rw [if_neg hmax]
    have hpos : 0 < max.toNat := Nat.pos_of_ne_zero fun h => hmax (UInt32.toNat.inj h)
    have hlt := Generator.below_lt .half hpos w.stream
    have hvalue : (Generator.below .half max.toNat w.stream).1.toUInt32 < max := by
      rw [UInt32.lt_iff_toNat_lt, Nat.toUInt32_eq, UInt32.toNat_ofNat']
      exact Nat.lt_of_le_of_lt (Nat.mod_le _ _) hlt
    simp only [isInRange, Bool.or_eq_true, decide_eq_true_eq]
    exact Or.inl hvalue

/-! ### Replays -/

namespace Replay

variable {τ : Type}

/-- The answer of a replay is admissible if what is read from a decision is, the end of the run
where it is expected, and the answer of the suffix. -/
theorem admissible_answer {r : Replay τ} {endExpected : Bool}
    {read : Decision → Except Mismatch (Option α)} {atEnd : Answer α}
    {fromSuffix : τ → Answer α × τ}
    (hread : r.isCompleted = false → ∀ d a, read d = .ok a → Admissible good dry (.ok a))
    (hend : endExpected = true → Admissible good dry atEnd)
    (hsuffix : ∀ s, Admissible good dry (fromSuffix s).1) :
    Admissible good dry (r.answer endExpected read atEnd fromSuffix).1 := by
  unfold answer next
  by_cases hlive : !r.handedOver ∧ r.position < r.schedule.size
  · -- the next decision answers, or does not fit
    have hcompleted : r.isCompleted = false := by
      simpa [isCompleted] using hlive
    rw [dif_pos hlive]
    show Admissible good dry ((read _).mapError _)
    cases hd : read r.schedule[r.position] with
    | ok a => exact hread hcompleted _ a hd
    | error cause => exact .failed fun id h => by cases h
  · rw [dif_neg hlive]
    cases r.suffix with
    | some s => exact hsuffix s
    | none =>
        cases hexpected : !r.handedOver && endExpected with
        | true => exact hend (Bool.and_eq_true_iff.mp hexpected).2
        | false => exact .failed fun id h => by cases h

theorem enabledIn_of_readOperation {choices : List Snapshot} {d : Decision}
    {id? : Option OperationId} (h : readOperation choices d = .ok id?) :
    Admissible (EnabledIn choices) (AllDisabled choices) (.ok id?) := by
  cases d with
  | schedule id =>
      rw [readOperation] at h
      split at h
      · rename_i op hfound
        split at h
        · rename_i henabled
          cases h
          have hid : op.id = id := by simpa using List.find?_some hfound
          exact .decided ⟨op, List.mem_of_find?_eq_some hfound, hid, henabled⟩
        · cases h
      · cases h
  | boolean _ | fairBoolean _ _ | integer _ => cases h

theorem judicious [Strategy τ] (hτ : Strategy.Judicious τ) : Strategy.Judicious (Replay τ) where
  operation r choices current := by
    refine admissible_answer (fun _ d id? h => enabledIn_of_readOperation h) (fun hend => ?_)
      fun s => hτ.operation s choices current
    refine .declined fun op hop => ?_
    rw [Bool.not_eq_eq_eq_not, Bool.not_true] at hend
    exact Bool.eq_false_iff.mpr (List.any_eq_false.mp hend op hop)
  boolean r max := by
    refine admissible_answer (fun _ d b? h => ?_) (fun hend => nomatch hend)
      fun s => hτ.boolean s max
    cases d with
    | boolean _ | fairBoolean _ _ => cases h; exact .decided trivial
    | schedule _ | integer _ => cases h
  integer r max := by
    refine admissible_answer (fun _ d n? h => ?_) (fun hend => nomatch hend)
      fun s => hτ.integer s max
    cases d with
    | integer _ => cases h; exact .decided trivial
    | schedule _ | boolean _ | fairBoolean _ _ => cases h

/-- Behind its end a replay has the integers of its suffix only. -/
theorem ranged_of_completed [Strategy τ] (hτ : ∀ t : τ, Strategy.Ranged t) {r : Replay τ}
    (hr : r.isCompleted = true) : Strategy.Ranged r := by
  intro max
  refine admissible_answer (fun hlive => ?_) (fun hend => nomatch hend) fun s => hτ s max
  rw [hr] at hlive
  cases hlive

end Replay

/-! ### Guides -/

namespace Minimization

theorem Cursor.enabledIn_of_nextOperation {policy : MatchPolicy} {choices : List Snapshot}
    {c : Cursor} {id : OperationId} (h : (c.nextOperation policy choices).1 = some id) :
    EnabledIn choices id := by
  fun_induction Cursor.nextOperation policy choices c with
  | case1 => cases h
  | case2 c step hstep hdeleted ih => exact ih h
  | case3 c step hstep hkept hchoice ih => exact ih h
  | case4 c step hstep hkept hkind hnone ih => exact ih h
  | case5 c step hstep hkept hkind op hfound =>
      obtain rfl := Option.some.inj h
      have hop := List.find?_some hfound
      exact ⟨op, List.mem_of_find?_eq_some hfound, rfl, (Bool.and_eq_true_iff.mp hop).1⟩

theorem Editor.enabledIn_of_nextOperation {e : Editor} {choices : List Snapshot}
    {id : OperationId} (h : (e.nextOperation choices).1 = some id) : EnabledIn choices id := by
  unfold Editor.nextOperation at h
  cases hcursor : e.cursor with
  | none =>
      rw [hcursor] at h
      cases h
  | some cursor =>
      rw [hcursor] at h
      exact Cursor.enabledIn_of_nextOperation h

/-- What the guide has for a request for an integer is in range, or an error. -/
theorem Editor.admissible_nextInteger (e : Editor) (max : UInt32) :
    Admissible (isInRange · max = true) True (e.nextInteger max).1 := by
  unfold Editor.nextInteger
  split
  · split
    · rename_i hrange
      exact .decided hrange
    · exact .failed fun id h => by cases h
  · exact .declined trivial

/-! ### Minimizing sessions -/

namespace Session

variable {τ : Type}

/-- The session replays its input: not all decisions of the schedule have been handed out. -/
def Replaying (s : Session τ) : Prop :=
  s.mode = .replay ∧ ∃ replay ∈ s.replay, replay.isCompleted = false

theorem admissible_askSuffix {s : Session τ} {request : τ → Answer α × τ} {otherwise : Option α}
    (hsuffix : ∀ t, Admissible good dry (request t).1)
    (hotherwise : Admissible good dry (.ok otherwise)) :
    Admissible good dry (s.askSuffix request otherwise).1 := by
  unfold askSuffix
  cases s.suffix with
  | some t => exact hsuffix t
  | none => exact hotherwise

theorem admissible_askReplay {s : Session τ} {fromReplay : Replay τ → Answer α × Replay τ}
    {fromSuffix : τ → Answer α × τ} {otherwise : Option α}
    (hreplay : ∀ replay ∈ s.replay, Admissible good dry (fromReplay replay).1)
    (hsuffix : ∀ t, Admissible good dry (fromSuffix t).1)
    (hotherwise : Admissible good dry (.ok otherwise)) :
    Admissible good dry (s.askReplay fromReplay fromSuffix otherwise).1 := by
  unfold askReplay
  cases hfound : s.replay with
  | none => exact .failed fun id h => by cases h
  | some replay =>
      dsimp only
      split
      · exact admissible_askSuffix hsuffix hotherwise
      · exact hreplay replay hfound

/-- The integer of a session comes from the replay, from the guide, which has it checked, or from
the suffix. -/
theorem admissible_nextInteger [Strategy τ] {good : UInt32 → Prop} {s : Session τ} {max : UInt32}
    (hreplay : s.mode = .replay →
      ∀ replay ∈ s.replay, Admissible good False (Strategy.nextInteger replay max).1)
    (hguide : ∀ n, isInRange n max = true → good n)
    (hsuffix : ∀ t : τ, Admissible good False (Strategy.nextInteger t max).1) :
    Admissible good False (Strategy.nextInteger s max).1 := by
  have hzero : Admissible good False (.ok (some 0)) := by
    refine .decided (hguide 0 ?_)
    by_cases hmax : max = 0
    · rw [hmax]
      rfl
    · have hpos : 0 < max := UInt32.pos_iff_ne_zero.mpr hmax
      simp only [isInRange, Bool.or_eq_true, decide_eq_true_eq]
      exact Or.inl hpos
  show Admissible good False (s.nextInteger max).1
  unfold Session.nextInteger
  dsimp only
  cases hmode : s.countStep.mode with
  | replay => exact admissible_askReplay (hreplay hmode) hsuffix hzero
  | free => exact admissible_askSuffix hsuffix hzero
  | guided =>
      have hanswer := s.countStep.editor.admissible_nextInteger max
      rcases hguided : s.countStep.editor.nextInteger max with ⟨e | n | n, editor⟩ <;>
        rw [hguided] at hanswer
      · cases hanswer with
        | failed herror => exact .failed herror
      · -- the guide has no integer here, and the session stays guided
        exact admissible_askSuffix hsuffix hzero
      · cases hanswer with
        | decided hrange => exact .decided (hguide n hrange)

theorem judicious [Strategy τ] (hτ : Strategy.Judicious τ) : Strategy.Judicious (Session τ) where
  operation s choices current := by
    have hsuffix := fun t : τ => hτ.operation t choices current
    have hotherwise := admissible_firstEnabled choices
    show Admissible _ _ (s.nextOperation choices current).1
    unfold Session.nextOperation
    dsimp only
    cases hmode : s.countStep.mode with
    | replay =>
        refine admissible_askReplay (fun replay _ => ?_) hsuffix hotherwise
        exact (Replay.judicious hτ).operation replay choices current
    | free => exact admissible_askSuffix hsuffix hotherwise
    | guided =>
        rcases hguided : s.countStep.editor.nextOperation choices with ⟨_ | id, editor⟩
        · exact admissible_askSuffix hsuffix hotherwise
        · refine .decided (@Editor.enabledIn_of_nextOperation s.countStep.editor choices id ?_)
          rw [hguided]
  boolean s max := by
    have hsuffix := fun t : τ => hτ.boolean t max
    have hotherwise : Admissible (fun _ : Bool => True) False (.ok (some false)) := .decided trivial
    show Admissible _ _ (s.nextBoolean max).1
    unfold Session.nextBoolean
    dsimp only
    cases hmode : s.countStep.mode with
    | replay =>
        refine admissible_askReplay (fun replay _ => ?_) hsuffix hotherwise
        exact (Replay.judicious hτ).boolean replay max
    | free => exact admissible_askSuffix hsuffix hotherwise
    | guided =>
        rcases s.countStep.editor.nextBoolean with ⟨_ | b, editor⟩
        · exact admissible_askSuffix hsuffix hotherwise
        · exact .decided trivial
  integer s max :=
    admissible_nextInteger (fun _ replay _ => (Replay.judicious hτ).integer replay max)
      (fun _ _ => trivial) fun t => hτ.integer t max

/-- A session that does not replay its input has integers in range if its suffix has. -/
theorem ranged_of_not_replaying [Strategy τ] (hτ : ∀ t : τ, Strategy.Ranged t) {s : Session τ}
    (hs : ¬s.Replaying) : Strategy.Ranged s := by
  intro max
  refine admissible_nextInteger (fun hmode replay hreplay => ?_) (fun _ hrange => hrange)
    fun t => hτ t max
  have hcompleted : replay.isCompleted = true :=
    Bool.of_not_eq_false fun hlive => hs ⟨hmode, replay, hreplay, hlive⟩
  exact Replay.ranged_of_completed hτ hcompleted max

end Session

end Minimization

/-! ### Recordings and all the others -/

theorem Recorded.judicious {σ : Type} [Strategy σ] (hσ : Strategy.Judicious σ) :
    Strategy.Judicious (Recorded σ) where
  operation s choices current := hσ.operation s.inner choices current
  boolean s max := hσ.boolean s.inner max
  integer s max := hσ.integer s.inner max

/-- The strategies of this library: random walks, and those that take another one on as a suffix or
record it. -/
inductive BuiltIn : (σ : Type) → [Strategy σ] → Prop
  | walk {γ : Type} [Generator γ] : BuiltIn (Walk γ)
  | replay {τ : Type} [Strategy τ] (suffix : BuiltIn τ) : BuiltIn (Replay τ)
  | session {τ : Type} [Strategy τ] (suffix : BuiltIn τ) : BuiltIn (Session τ)
  | recorded {σ : Type} [Strategy σ] (inner : BuiltIn σ) : BuiltIn (Recorded σ)

/-- The states that draw their integers from a random walk or take them from a guide. -/
inductive DrawsIntegers : {σ : Type} → [Strategy σ] → σ → Prop
  | walk {γ : Type} [Generator γ] (w : Walk γ) : DrawsIntegers w
  | session {γ : Type} [Generator γ] {s : Session (Walk γ)} (h : ¬s.Replaying) : DrawsIntegers s
  | recorded {σ : Type} [Strategy σ] {s : Recorded σ} (h : DrawsIntegers s.inner) :
      DrawsIntegers s

theorem BuiltIn.judicious {σ : Type} [Strategy σ] (h : BuiltIn σ) : Strategy.Judicious σ := by
  induction h with
  | walk => exact Walk.judicious
  | replay _ ih => exact Replay.judicious ih
  | session _ ih => exact Session.judicious ih
  | recorded _ ih => exact Recorded.judicious ih

theorem DrawsIntegers.ranged {σ : Type} [Strategy σ] {s : σ} (h : DrawsIntegers s) :
    Strategy.Ranged s := by
  induction h with
  | walk w => exact w.ranged
  | session h => exact Session.ranged_of_not_replaying Walk.ranged h
  | recorded _ ih => exact ih

end Interleave
