import Interleave.Minimization.Editor
import Interleave.Proofs.EventTree.Growth

/-!
# One step in a guide

What a cursor does at its position, and what it makes of a choice: the equations by which the walk
of `Cursor.nextOperation` is followed step by step. Where the walk leads to, whatever it passes on
the way, is said once by `Cursor.Walked`, and of every policy. Only whether a step is taken depends
on the policy; a lenient one (`MatchPolicy.Lenient`) lets a step be taken by an operation that has
declared it.
-/

namespace Interleave.Minimization

namespace MatchPolicy

/-- At least the operations that have declared the action of the step are accepted. Choices are not
judged. -/
def Lenient (policy : MatchPolicy) : Prop :=
  ∀ guide candidate, guide.kind.isChoice = false → fits guide candidate.next = true →
    policy.accepts guide candidate = true

theorem lenient_always : always.Lenient := fun _ _ _ _ => rfl

theorem lenient_declaredAction : declaredAction.Lenient := fun _ _ _ hfits => hfits

end MatchPolicy

namespace Cursor

variable {c : Cursor} {policy : MatchPolicy} {choices : List Snapshot} {step : Step}

/-! ### The next step -/

theorem isPastCutoff_iff : c.isPastCutoff = true ↔ ∃ last ∈ c.cutoff, last < c.position := by
  rw [isPastCutoff]
  cases c.cutoff <;> simp

/-- The next step is the one at the position, up to the cutoff. -/
theorem nextStep?_eq_some_iff : c.nextStep? = some step ↔
    c.guide.steps[c.position]? = some step ∧ ∀ last ∈ c.cutoff, c.position ≤ last := by
  rw [nextStep?]
  split
  · rename_i hpast
    obtain ⟨last, hlast, hlt⟩ := isPastCutoff_iff.mp hpast
    constructor
    · intro hnone
      cases hnone
    · rintro ⟨-, hwithin⟩
      exact absurd (hwithin last hlast) (Nat.not_le.mpr hlt)
  · rename_i hpast
    constructor
    · intro hstep
      refine ⟨hstep, fun last hlast => Nat.le_of_not_lt ?_⟩
      intro hlt
      exact hpast (isPastCutoff_iff.mpr ⟨last, hlast, hlt⟩)
    · exact And.left

theorem nextOperation_of_end (hend : c.nextStep? = none) :
    c.nextOperation policy choices = (none, c.release) := by
  rw [nextOperation]
  split
  · rfl
  · rename_i step hstep
    rw [hend] at hstep
    cases hstep

/-- What is done at the next step. -/
theorem nextOperation_of_step (hstep : c.nextStep? = some step) :
    c.nextOperation policy choices =
      if c.isDeleted c.position then (c.passDeleted step).nextOperation policy choices
      else if step.kind.isChoice then c.advance.nextOperation policy choices
      else match choices.find? fun op => op.enabled && op.id = step.source with
        | none => c.advance.nextOperation policy choices
        | some op => (some op.id, if policy.accepts step op then c.take else c.release) := by
  rw [nextOperation]
  split
  · rename_i hnone
    rw [hstep] at hnone
    cases hnone
  · rename_i found hfound
    rw [hstep] at hfound
    cases hfound
    rfl

/-- A choice is passed over. -/
theorem nextOperation_of_choice (hstep : c.nextStep? = some step)
    (hkept : c.isDeleted c.position = false) (hchoice : step.kind.isChoice = true) :
    c.nextOperation policy choices = c.advance.nextOperation policy choices := by
  rw [nextOperation_of_step hstep, if_neg (ne_true_of_eq_false hkept), if_pos hchoice]

/-- The enabled operation of the next step is returned. It takes the step if the policy accepts
it. -/
theorem nextOperation_of_found {op : Snapshot} (hstep : c.nextStep? = some step)
    (hkept : c.isDeleted c.position = false) (hkind : step.kind.isChoice = false)
    (hfind : choices.find? (fun op => op.enabled && op.id = step.source) = some op) :
    c.nextOperation policy choices =
      (some op.id, if policy.accepts step op then c.take else c.release) := by
  rw [nextOperation_of_step hstep, if_neg (ne_true_of_eq_false hkept),
    if_neg (ne_true_of_eq_false hkind), hfind]

theorem guide_passDeleted (c : Cursor) (step : Step) : (c.passDeleted step).guide = c.guide := by
  simp [passDeleted, advance, guide_deleteLink]

theorem position_passDeleted (c : Cursor) (step : Step) :
    (c.passDeleted step).position = c.position + 1 := by
  simp [passDeleted, advance, position_deleteLink]

/-! ### The walk to the next operation -/

/-- The cursor has walked on in its guide. It does not take a step, or it takes the one that it has
passed last, which was still ahead and is no choice. -/
structure Walked (c c' : Cursor) : Prop where
  guide : c'.guide = c.guide
  onward : c.position ≤ c'.position
  inside : c.position ≤ c.guide.size → c'.position ≤ c.guide.size
  taken : ∀ k, c'.active = some k → c.position ≤ k ∧ c'.position = k + 1 ∧
    ∃ step, c.guide.steps[k]? = some step ∧ step.kind.isChoice = false

/-- A walk goes on behind a step that is passed over. -/
theorem Walked.of_passed {d c' : Cursor} (h : d.Walked c') (hguide : d.guide = c.guide)
    (hposition : d.position = c.position + 1) (hlt : c.position < c.guide.size) :
    c.Walked c' := by
  obtain ⟨hsame, honward, hinside, htaken⟩ := h
  rw [hguide] at hsame hinside htaken
  rw [hposition] at honward hinside htaken
  refine ⟨hsame, Nat.le_of_succ_le honward, fun _ => hinside hlt, ?_⟩
  intro k hk
  obtain ⟨hle, hrest⟩ := htaken k hk
  exact ⟨Nat.le_of_succ_le hle, hrest⟩

/-- Where no step is taken a cursor may stay. -/
theorem walked_release (c : Cursor) : c.Walked c.release where
  guide := rfl
  onward := Nat.le_refl _
  inside := id
  taken _ hk := nomatch hk

theorem walked_take (hstep : c.nextStep? = some step) (hkind : step.kind.isChoice = false) :
    c.Walked c.take where
  guide := rfl
  onward := Nat.le_succ _
  inside _ := lt_size_of_nextStep? hstep
  taken k hk := by
    cases hk
    exact ⟨Nat.le_refl _, rfl, step, (nextStep?_eq_some_iff.mp hstep).1, hkind⟩

/-- Looking for the next operation is a walk, whatever the policy accepts. -/
theorem walked_nextOperation (policy : MatchPolicy) (choices : List Snapshot) (c : Cursor) :
    c.Walked (c.nextOperation policy choices).2 := by
  -- the induction is on the walk: three kinds of steps are passed over before one is found
  fun_induction nextOperation policy choices c with
  | case1 c hend => exact walked_release c
  | case2 c step hstep hdeleted ih =>
      exact ih.of_passed (guide_passDeleted c step) (position_passDeleted c step)
        (lt_size_of_nextStep? hstep)
  | case3 c step hstep hkept hchoice ih =>
      exact ih.of_passed rfl rfl (lt_size_of_nextStep? hstep)
  | case4 c step hstep hkept hkind hnone ih =>
      exact ih.of_passed rfl rfl (lt_size_of_nextStep? hstep)
  | case5 c step hstep hkept hkind op hfind =>
      rw [Bool.not_eq_true] at hkind
      cases haccepts : policy.accepts step op with
      | true => exact walked_take hstep hkind
      | false => exact walked_release c

/-! ### Choices -/

theorem isChoice_of_isChoiceOf {boolean : Bool} {kind : StepKind}
    (h : isChoiceOf boolean kind = true) : kind.isChoice = true ∧ kind ≠ .send := by
  cases kind with
  | boolean b => exact ⟨rfl, by simp⟩
  | integer n => exact ⟨rfl, by simp⟩
  | start | create | send | receive => cases h

/-- The choice that is linked from the step being taken is found. -/
theorem nextChoice_of_link {boolean : Bool} {linked : Step} {next : Nat}
    (hactive : c.activeStep? = some linked) (hlink : linked.directChild = some next)
    (hstep : c.guide.steps[next]? = some step) (hkind : isChoiceOf boolean step.kind = true)
    (hkept : c.isDeleted next = false) :
    c.nextChoice boolean = (some step.kind, { c with active := some next }) := by
  simp [nextChoice, hactive, hlink, hstep, hkind, hkept]

/-- A choice is answered only by the step that is linked from the one being taken. -/
theorem nextChoice_eq_or (boolean : Bool) (c : Cursor) :
    c.nextChoice boolean = (none, c) ∨
      ∃ i linked next step, c.active = some i ∧ c.guide.steps[i]? = some linked ∧
        linked.directChild = some next ∧ c.guide.steps[next]? = some step ∧
        isChoiceOf boolean step.kind = true ∧
        c.nextChoice boolean = (some step.kind, { c with active := some next }) := by
  unfold nextChoice
  split
  · exact Or.inl rfl
  · rename_i next hlink
    split
    · exact Or.inl rfl
    · rename_i step hstep
      split
      · rename_i hkind
        right
        obtain ⟨linked, hlinked, hdirect⟩ := Option.bind_eq_some_iff.mp hlink
        obtain ⟨i, hactive, hfound⟩ := Option.bind_eq_some_iff.mp hlinked
        rw [Bool.and_eq_true] at hkind
        exact ⟨i, linked, next, step, hactive, hfound, hdirect, hstep, hkind.1, rfl⟩
      · exact Or.inl rfl

/-! ### Deletions -/

/-- A deleted step changes neither the place of a cursor nor the step that it takes. -/
theorem deleteLink_eq (c : Cursor) (link : Option Nat) :
    ∃ deleted, c.deleteLink link = { c with deleted := deleted } := by
  cases link with
  | none => exact ⟨c.deleted, rfl⟩
  | some index => exact ⟨_, rfl⟩

theorem mem_deleted_deleteLink {link : Option Nat} {j : Nat} :
    j ∈ (c.deleteLink link).deleted ↔ link = some j ∨ j ∈ c.deleted := by
  cases link with
  | none => simp [deleteLink]
  | some index => simp [deleteLink, delete, mem_insertAscending, eq_comm]

end Cursor

end Interleave.Minimization
