import Interleave.Minimization.Editor

/-!
# Calls to an editor

A run and its end reach the editor as a sequence of calls. Only the end of a run moves the
minimization on: every other call changes nothing but the cursor and the count of droppable sends
(`Editor.after_of_not_endRun`). `Editor.Started` are the editors that have just been started and
`Editor.afterAll` says where a sequence of calls leads from there.
-/

namespace Interleave.Minimization

namespace Editor

/-- What an editor is asked and told during a session. -/
inductive Call where
  | beginRun
  | nextOperation (choices : List Snapshot)
  | nextBoolean
  | nextInteger (max : UInt32)
  | onSend (event : Event)
  | endRun (bug : Option BugKind) (tree : EventTree)

/-- The editor after one call. -/
def after (e : Editor) : Call → Editor
  | .beginRun => e.beginRun
  | .nextOperation choices => (e.nextOperation choices).2
  | .nextBoolean => e.nextBoolean.2
  | .nextInteger max => (e.nextInteger max).2
  | .onSend event => (e.onSend event).2
  | .endRun bug tree => (e.endRun bug tree).2

/-- The editor after a sequence of calls. -/
def afterAll (e : Editor) (calls : List Call) : Editor :=
  calls.foldl after e

@[simp]
theorem afterAll_nil (e : Editor) : e.afterAll [] = e := rfl

@[simp]
theorem afterAll_cons (e : Editor) (c : Call) (calls : List Call) :
    e.afterAll (c :: calls) = (e.after c).afterAll calls := rfl

theorem afterAll_append (e : Editor) (xs ys : List Call) :
    e.afterAll (xs ++ ys) = (e.afterAll xs).afterAll ys :=
  List.foldl_append

/-- An editor that has just been started, from a schedule or from a tree. -/
inductive Started : Editor → Prop where
  | schedule (settings : Settings) (policy : MatchPolicy) :
      Started (new settings policy).startFromSchedule
  | tree (settings : Settings) (policy : MatchPolicy) (tree : EventTree) :
      Started ((new settings policy).startFromTree tree)

/-- A property that every call keeps holds after every sequence of calls. -/
theorem afterAll_induction {P : Editor → Prop} (step : ∀ e c, P e → P (e.after c)) {e : Editor}
    (h : P e) (calls : List Call) : P (e.afterAll calls) := by
  induction calls generalizing e with
  | nil => exact h
  | cons c calls ih => exact ih (step e c h)

/-- An editor that differs from the given one in nothing but what belongs to the current run. -/
def SameSearch (e e' : Editor) : Prop :=
  ∃ cursor seen, e' = { e with cursor := cursor, droppableSeen := seen }

theorem SameSearch.refl (e : Editor) : e.SameSearch e :=
  ⟨e.cursor, e.droppableSeen, rfl⟩

theorem SameSearch.trans {e e' e'' : Editor} (h : e.SameSearch e') (h' : e'.SameSearch e'') :
    e.SameSearch e'' := by
  obtain ⟨cursor, seen, rfl⟩ := h
  obtain ⟨cursor', seen', rfl⟩ := h'
  exact ⟨cursor', seen', rfl⟩

theorem SameSearch.phase {e e' : Editor} (h : e.SameSearch e') : e'.phase = e.phase := by
  obtain ⟨cursor, seen, rfl⟩ := h
  rfl

theorem SameSearch.settings {e e' : Editor} (h : e.SameSearch e') : e'.settings = e.settings := by
  obtain ⟨cursor, seen, rfl⟩ := h
  rfl

theorem SameSearch.policy {e e' : Editor} (h : e.SameSearch e') : e'.policy = e.policy := by
  obtain ⟨cursor, seen, rfl⟩ := h
  rfl

/-- The sends that are withheld for a candidate are a matter of the search. -/
theorem SameSearch.withholds {e e' : Editor} (h : e.SameSearch e') (number : Nat) :
    e'.withholds number = e.withholds number := by
  obtain ⟨cursor, seen, rfl⟩ := h
  rfl

section Requests

variable {e : Editor} {cursor : Cursor}

theorem nextOperation_of_unguided (h : e.cursor = none) (choices : List Snapshot) :
    e.nextOperation choices = (none, e) := by
  rw [nextOperation, h]

theorem nextOperation_of_cursor (h : e.cursor = some cursor) (choices : List Snapshot) :
    e.nextOperation choices =
      ((cursor.nextOperation e.policy choices).1,
        { e with cursor := some (cursor.nextOperation e.policy choices).2 }) := by
  rw [nextOperation, h]

theorem nextChoice_of_unguided (h : e.cursor = none) (boolean : Bool) :
    e.nextChoice boolean = (none, e) := by
  rw [nextChoice, h]

theorem nextChoice_of_cursor (h : e.cursor = some cursor) (boolean : Bool) :
    e.nextChoice boolean =
      ((cursor.nextChoice boolean).1, { e with cursor := some (cursor.nextChoice boolean).2 }) := by
  rw [nextChoice, h]

end Requests

theorem sameSearch_nextOperation (e : Editor) (choices : List Snapshot) :
    e.SameSearch (e.nextOperation choices).2 := by
  cases h : e.cursor with
  | none =>
      rw [nextOperation_of_unguided h]
      exact .refl e
  | some cursor =>
      rw [nextOperation_of_cursor h]
      exact ⟨_, _, rfl⟩

theorem sameSearch_nextChoice (e : Editor) (boolean : Bool) :
    e.SameSearch (e.nextChoice boolean).2 := by
  cases h : e.cursor with
  | none =>
      rw [nextChoice_of_unguided h]
      exact .refl e
  | some cursor =>
      rw [nextChoice_of_cursor h]
      exact ⟨_, _, rfl⟩

theorem after_nextBoolean (e : Editor) : e.nextBoolean.2 = (e.nextChoice true).2 := by
  unfold nextBoolean
  split <;> rename_i heq <;> rw [heq]

theorem after_nextInteger (e : Editor) (max : UInt32) :
    (e.nextInteger max).2 = (e.nextChoice false).2 := by
  unfold nextInteger
  split
  · rename_i heq
    rw [heq]
    split <;> rfl
  · rename_i heq
    rw [heq]

/-- What a request of a run makes of an editor. -/
inductive Asked (e : Editor) : Editor → Prop where
  | spared : Asked e e
  | operation (choices : List Snapshot) : Asked e (e.nextOperation choices).2
  | choice (boolean : Bool) : Asked e (e.nextChoice boolean).2

theorem asked_nextBoolean (e : Editor) : e.Asked e.nextBoolean.2 := by
  rw [after_nextBoolean]
  exact .choice true

theorem asked_nextInteger (e : Editor) (max : UInt32) : e.Asked (e.nextInteger max).2 := by
  rw [after_nextInteger]
  exact .choice false

theorem Asked.sameSearch {e e' : Editor} (h : e.Asked e') : e.SameSearch e' := by
  cases h with
  | spared => exact .refl e
  | operation choices => exact sameSearch_nextOperation e choices
  | choice boolean => exact sameSearch_nextChoice e boolean

theorem sameSearch_onSend (e : Editor) (event : Event) : e.SameSearch (e.onSend event).2 := by
  unfold onSend
  cases h : e.cursor with
  | none => exact SameSearch.refl e
  | some cursor =>
      dsimp only
      split
      · exact SameSearch.refl e
      · split <;> exact ⟨_, _, rfl⟩

/-- Calls other than the end of a run leave the search where it is. -/
theorem after_of_not_endRun (e : Editor) {c : Call} (h : ∀ bug tree, c ≠ .endRun bug tree) :
    e.SameSearch (e.after c) := by
  cases c with
  | beginRun => exact ⟨_, _, rfl⟩
  | nextOperation choices => exact sameSearch_nextOperation e choices
  | nextBoolean => exact (asked_nextBoolean e).sameSearch
  | nextInteger max => exact (asked_nextInteger e max).sameSearch
  | onSend event => exact sameSearch_onSend e event
  | endRun bug tree => exact absurd rfl (h bug tree)

/-- A property of the search that every end of a run keeps holds after every sequence of calls. -/
theorem afterAll_induction_endRun {P : Editor → Prop}
    (frame : ∀ e e', e.SameSearch e' → P e → P e')
    (step : ∀ e bug tree, P e → P (e.endRun bug tree).2) {e : Editor} (h : P e)
    (calls : List Call) : P (e.afterAll calls) := by
  refine afterAll_induction (fun e c he => ?_) h calls
  by_cases hc : ∃ bug tree, c = .endRun bug tree
  · obtain ⟨bug, tree, rfl⟩ := hc
    exact step e bug tree he
  · exact frame e _ (after_of_not_endRun e fun bug tree heq => hc ⟨bug, tree, heq⟩) he

end Editor

end Interleave.Minimization
