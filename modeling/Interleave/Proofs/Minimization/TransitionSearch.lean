import Interleave.Proofs.Minimization.Verdicts
import Mathlib.Data.Nat.Log

/-!
# The search for the critical transition

The search halves a window of cutoffs. `Window` is its invariant: the right end is the last step or
a cutoff that was tried and reproduced the bug, and the cutoff before the left end is one that was
tried and did not, unless the left end is 0. No order on the answers is assumed. Every trial takes
the window to its upper or lower half, which bounds the number of trials by the binary logarithm of
the number of steps (`clog_halves`), and where the two ends meet the search is over. For answers
that are monotone in the cutoff this makes the transition the least cutoff that reproduces the bug
(`Window.isLeast`).
-/

namespace Interleave.Minimization

namespace Editor

/-- The cutoff that an ended run tried, and whether the run reproduced the bug. -/
def triedBy (e : Editor) : Call → List (Nat × Bool)
  | .endRun bug _ => e.phase.cutoff.toList.map fun cutoff => (cutoff, e.reproduces bug)
  | _ => []

/-- The cutoffs tried in a sequence of calls, in order, and which of them reproduced the bug. -/
def triedCutoffs (e : Editor) : List Call → List (Nat × Bool)
  | [] => []
  | c :: calls => e.triedBy c ++ (e.after c).triedCutoffs calls

/-- Whether a call ends a run. -/
def Call.endsRun : Call → Bool
  | .endRun _ _ => true
  | _ => false

/-- The ends of a search window over the cutoffs up to `last`, tied to the answers so far. -/
structure Window (last : Nat) (tried : List (Nat × Bool)) (left right : Nat) : Prop where
  left_le_right : left ≤ right
  right_le_last : right ≤ last
  right_reproduced : right = last ∨ (right, true) ∈ tried
  left_failed : left = 0 ∨ (left - 1, false) ∈ tried

/-- Where a search stands: its window is open and has more than one cutoff, or it is closed. -/
inductive Searching (last : Nat) (tried : List (Nat × Bool)) : Phase → Prop where
  | open {left right : Nat} : left < right → Window last tried left right →
      Searching last tried (.search left right)
  | closed {c : Nat} : Window last tried c c → Searching last tried (.completed (some c))

/-- Trials that a phase may still take. -/
def trialsLeft : Phase → Nat
  | .search left right => Nat.clog 2 (right - left + 1)
  | _ => 0

theorem middle_lt {left right : Nat} (h : left < right) : Phase.middle left right < right := by
  unfold Phase.middle
  omega

theorem le_middle (left right : Nat) : left ≤ Phase.middle left right :=
  Nat.le_add_right left _

/-- Both halves of a window of more than one cutoff need fewer trials than the window. -/
theorem clog_halves {left right : Nat} (h : left < right) :
    Nat.clog 2 (Phase.middle left right - left + 1) + 1 ≤ Nat.clog 2 (right - left + 1) ∧
      Nat.clog 2 (right - (Phase.middle left right + 1) + 1) + 1 ≤
        Nat.clog 2 (right - left + 1) := by
  -- the rounded-up half of the window bounds both halves
  have hsplit : Nat.clog 2 (right - left + 1) =
      Nat.clog 2 ((right - left + 1 + 2 - 1) / 2) + 1 :=
    Nat.clog_of_two_le (by omega) (by omega)
  unfold Phase.middle
  constructor
  · have : Nat.clog 2 (left + (right - left) / 2 - left + 1) ≤
        Nat.clog 2 ((right - left + 1 + 2 - 1) / 2) := Nat.clog_mono_right 2 (by omega)
    omega
  · have : Nat.clog 2 (right - (left + (right - left) / 2 + 1) + 1) ≤
        Nat.clog 2 ((right - left + 1 + 2 - 1) / 2) := Nat.clog_mono_right 2 (by omega)
    omega

section Windows

variable {last : Nat} {tried : List (Nat × Bool)} {left right : Nat}

theorem Window.start (last : Nat) : Window last [] 0 last :=
  ⟨Nat.zero_le last, Nat.le_refl last, .inl rfl, .inl rfl⟩

theorem Window.mono (h : Window last tried left right) (more : List (Nat × Bool)) :
    Window last (tried ++ more) left right where
  left_le_right := h.left_le_right
  right_le_last := h.right_le_last
  right_reproduced := h.right_reproduced.imp_right (List.mem_append_left more)
  left_failed := h.left_failed.imp_right (List.mem_append_left more)

/-- The lower half after its last cutoff has reproduced the bug. -/
theorem Window.lower (h : Window last tried left right) (hlt : left < right) :
    Window last (tried ++ [(Phase.middle left right, true)]) left (Phase.middle left right) where
  left_le_right := le_middle left right
  right_le_last := (middle_lt hlt).le.trans h.right_le_last
  right_reproduced := .inr (by simp)
  left_failed := (h.mono _).left_failed

/-- The upper half after the cutoff before it has not reproduced the bug. -/
theorem Window.upper (h : Window last tried left right) (hlt : left < right) :
    Window last (tried ++ [(Phase.middle left right, false)]) (Phase.middle left right + 1)
      right where
  left_le_right := middle_lt hlt
  right_le_last := h.right_le_last
  right_reproduced := (h.mono _).right_reproduced
  left_failed := .inr (by simp)

/-- A window closed on one cutoff holds the least cutoff of a monotone property that the answers
agree with. -/
theorem Window.isLeast {c : Nat} (h : Window last tried c c) {good : Nat → Prop}
    (mono : ∀ a b, a ≤ b → b ≤ last → good a → good b) (hlast : good last)
    (agree : ∀ t ∈ tried, t.2 = true ↔ good t.1) : good c ∧ ∀ k, good k → c ≤ k := by
  constructor
  · obtain rfl | hc := h.right_reproduced
    · exact hlast
    · exact (agree _ hc).mp rfl
  · intro k hk
    obtain rfl | hc := h.left_failed
    · exact Nat.zero_le k
    · -- were `k` below `c`, the failed cutoff before `c` would have to reproduce the bug
      refine Nat.le_of_not_lt fun hlt => ?_
      have hle : c - 1 ≤ last := (Nat.sub_le c 1).trans h.right_le_last
      have := (agree _ hc).mpr (mono k (c - 1) (by omega) hle hk)
      exact Bool.noConfusion this

theorem searching_continueSearch (e : Editor) (h : Window last tried left right) :
    Searching last tried (e.continueSearch left right).phase := by
  rcases e.continueSearch_cases left right with ⟨hle, heq⟩ | ⟨hlt, heq⟩ <;> rw [heq]
  · obtain rfl : left = right := Nat.le_antisymm h.left_le_right hle
    exact .closed h
  · exact .open hlt h

theorem trialsLeft_continueSearch (e : Editor) (left right : Nat) :
    trialsLeft (e.continueSearch left right).phase ≤ Nat.clog 2 (right - left + 1) := by
  rcases e.continueSearch_cases left right with ⟨-, heq⟩ | ⟨-, heq⟩ <;> rw [heq]
  · exact Nat.zero_le _
  · exact Nat.le_refl _

end Windows

theorem triedBy_of_not_endRun (e : Editor) {c : Call} (h : ∀ bug tree, c ≠ .endRun bug tree) :
    e.triedBy c = [] := by
  cases c with
  | endRun bug tree => exact absurd rfl (h bug tree)
  | beginRun => rfl
  | nextOperation choices => rfl
  | nextBoolean => rfl
  | nextInteger max => rfl
  | onSend event => rfl

/-- What calls that end `ends` runs do to a search that has tried `tried`: they try `new`, which
uses up trials that were left, and a search that is still open has tried a cutoff in every run. -/
structure SearchStep (last : Nat) (tried new : List (Nat × Bool)) (ends : Nat) (e e' : Editor) :
    Prop where
  searching : Searching last (tried ++ new) e'.phase
  searchTrials : e'.searchTrials = e.searchTrials + new.length
  trialsLeft : new.length + trialsLeft e'.phase ≤ trialsLeft e.phase
  stillOpen : e'.phase.cutoff.isSome → e.phase.cutoff.isSome ∧ new.length = ends

theorem searchStep_endRun {last : Nat} {tried : List (Nat × Bool)} {e : Editor}
    (h : Searching last tried e.phase) (bug : Option BugKind) (tree : EventTree) :
    SearchStep last tried (e.triedBy (.endRun bug tree)) 1 e (e.endRun bug tree).2 := by
  generalize hphase : e.phase = phase at h
  cases h with
  | closed hw =>
      have hnew : e.triedBy (.endRun bug tree) = [] := by simp [triedBy, hphase, Phase.cutoff]
      rw [hnew]
      refine ⟨?_, ?_, ?_, ?_⟩
      · simpa [endRun, hphase] using Searching.closed hw
      · simp [endRun, hphase]
      · simp [endRun, hphase, Editor.trialsLeft]
      · simp [endRun, hphase, Phase.cutoff]
  | @«open» left right hlt hw =>
      obtain ⟨hlower, hupper⟩ := clog_halves hlt
      have hnew : e.triedBy (.endRun bug tree) =
          [(Phase.middle left right, e.reproduces bug)] := by
        simp [triedBy, hphase, Phase.cutoff]
      rw [hnew]
      -- the answer for the middle decides which half is left
      cases hrep : e.reproduces bug with
      | true =>
          let asked := { e.counted with searchTrials := e.searchTrials + 1 }
          have heq : (e.endRun bug tree).2 =
              asked.continueSearch left (Phase.middle left right) := by
            simp [endRun, hphase, hrep, asked, counted]
          have hbound := trialsLeft_continueSearch asked left (Phase.middle left right)
          rw [heq]
          refine ⟨searching_continueSearch _ (hw.lower hlt), rfl, ?_, fun _ => ⟨?_, rfl⟩⟩
          · rw [hphase, List.length_singleton, Editor.trialsLeft]
            omega
          · rw [hphase]
            rfl
      | false =>
          let asked := { e.counted with searchTrials := e.searchTrials + 1 }
          have heq : (e.endRun bug tree).2 =
              asked.continueSearch (Phase.middle left right + 1) right := by
            simp [endRun, hphase, hrep, asked, counted]
          have hbound := trialsLeft_continueSearch asked (Phase.middle left right + 1) right
          rw [heq]
          refine ⟨searching_continueSearch _ (hw.upper hlt), rfl, ?_, fun _ => ⟨?_, rfl⟩⟩
          · rw [hphase, List.length_singleton, Editor.trialsLeft]
            omega
          · rw [hphase]
            rfl

theorem searchStep_after {last : Nat} {tried : List (Nat × Bool)} {e : Editor}
    (h : Searching last tried e.phase) (c : Call) :
    SearchStep last tried (e.triedBy c) c.endsRun.toNat e (e.after c) := by
  cases hc : c.endsRun with
  | true =>
      cases c with
      | endRun bug tree => exact searchStep_endRun h bug tree
      | _ => exact Bool.noConfusion hc
  | false =>
      have hne : ∀ bug tree, c ≠ .endRun bug tree := by
        rintro bug tree rfl
        exact Bool.noConfusion hc
      obtain ⟨cursor, seen, heq⟩ := after_of_not_endRun e hne
      rw [heq, triedBy_of_not_endRun e hne]
      exact ⟨by simpa using h, rfl, by simp, fun ho => ⟨ho, rfl⟩⟩

/-- The whole run of a search, from any point of it on. -/
theorem searchStep_afterAll {last : Nat} {tried : List (Nat × Bool)} {e : Editor}
    (h : Searching last tried e.phase) (calls : List Call) :
    SearchStep last tried (e.triedCutoffs calls) (calls.countP Call.endsRun) e
      (e.afterAll calls) := by
  induction calls generalizing e tried with
  | nil => exact ⟨by simpa [triedCutoffs] using h, rfl, by simp [triedCutoffs], fun ho => ⟨ho, rfl⟩⟩
  | cons c calls ih =>
      -- the first call, then the rest of them from where it leads
      have hstep := searchStep_after h c
      have hrest := ih hstep.searching
      have hlen : (e.triedCutoffs (c :: calls)).length =
          (e.triedBy c).length + ((e.after c).triedCutoffs calls).length :=
        List.length_append
      refine ⟨?_, ?_, ?_, fun ho => ?_⟩
      · simpa [triedCutoffs] using hrest.searching
      · rw [hlen, afterAll_cons, hrest.searchTrials, hstep.searchTrials, Nat.add_assoc]
      · have h₁ := hstep.trialsLeft
        have h₂ := hrest.trialsLeft
        rw [hlen, afterAll_cons]
        omega
      · obtain ⟨hmid, hcount⟩ := hrest.stillOpen ho
        obtain ⟨hopen, hends⟩ := hstep.stillOpen hmid
        refine ⟨hopen, ?_⟩
        rw [hlen, hends, hcount, List.countP_cons]
        cases c.endsRun <;> simp [Nat.add_comm]

/-- The editor that begins the search in a tree whose replay has just reproduced the bug. -/
theorem searching_endRun_treeReplay {e : Editor} {bug : Option BugKind}
    (hphase : e.phase = .treeReplay .search) (hrep : e.reproduces bug = true) (guide : EventTree) :
    Searching guide.lastIndex [] (e.endRun bug guide).2.phase ∧
      (e.endRun bug guide).2.searchTrials = e.searchTrials ∧
      trialsLeft (e.endRun bug guide).2.phase ≤ Nat.clog 2 guide.size := by
  have heq : (e.endRun bug guide).2 =
      ({ e with iterations := e.iterations + 1, cursor := none }.accept bug guide).continueSearch 0
        guide.lastIndex := by
    simp [endRun, hphase, hrep, enter, beginSearch, accept]
  rw [heq]
  refine ⟨searching_continueSearch _ (Window.start _), rfl, ?_⟩
  refine (trialsLeft_continueSearch _ _ _).trans ?_
  unfold EventTree.lastIndex
  -- the first window has one cutoff for every step; an empty tree counts as one of a single step
  obtain hzero | hpos := Nat.eq_zero_or_pos guide.size
  · simp [hzero]
  · exact Nat.clog_mono_right 2 (by omega)

/-- The search for the critical transition in a tree of any size, under any sequence of answers: its
window never closes before its ends meet, every cutoff tried lies inside it, the number of trials is
at most the binary logarithm of the number of steps, rounded up, and after as many runs the search
has found a cutoff that is the last step or reproduced the bug, and that is 0 or next to one that
did not. If the answers are those of a monotone property that holds of the last step, it is the
least cutoff that has the property. -/
theorem transitionSearch_finds_boundary {e : Editor} {bug : Option BugKind}
    (hphase : e.phase = .treeReplay .search) (hrep : e.reproduces bug = true) (guide : EventTree)
    (calls : List Call) :
    let start := (e.endRun bug guide).2
    let tried := start.triedCutoffs calls
    let found := start.afterAll calls
    (∀ left right, found.phase = .search left right →
        left < right ∧ right ≤ guide.lastIndex ∧ left ≤ Phase.middle left right ∧
          Phase.middle left right < right) ∧
      found.searchTrials = e.searchTrials + tried.length ∧
      tried.length ≤ Nat.clog 2 guide.size ∧
      (Nat.clog 2 guide.size ≤ calls.countP Call.endsRun →
        ∃ c, found.phase = .completed (some c)) ∧
      ∀ transition, found.phase = .completed transition →
        ∃ c, transition = some c ∧ c ≤ guide.lastIndex ∧
          (c = guide.lastIndex ∨ (c, true) ∈ tried) ∧ (c = 0 ∨ (c - 1, false) ∈ tried) ∧
          ∀ good : Nat → Prop, (∀ a b, a ≤ b → b ≤ guide.lastIndex → good a → good b) →
            good guide.lastIndex → (∀ t ∈ tried, t.2 = true ↔ good t.1) →
              good c ∧ ∀ k, good k → c ≤ k := by
  intro start tried found
  obtain ⟨hstart, htrials, hleft⟩ := searching_endRun_treeReplay hphase hrep guide
  have hrun := searchStep_afterAll hstart calls
  have hsearching : Searching guide.lastIndex tried found.phase := by
    simpa using hrun.searching
  have hbound : tried.length + trialsLeft found.phase ≤ Nat.clog 2 guide.size :=
    hrun.trialsLeft.trans hleft
  refine ⟨fun left right hopen => ?_, ?_, by omega, fun hcount => ?_, fun transition hdone => ?_⟩
  · rw [hopen] at hsearching
    cases hsearching with
    | «open» hlt hw => exact ⟨hlt, hw.right_le_last, le_middle left right, middle_lt hlt⟩
  · rw [← htrials]
    exact hrun.searchTrials
  · generalize hfound : found.phase = phase at hsearching hbound
    cases hsearching with
    | closed hw => exact ⟨_, rfl⟩
    | @«open» left right hlt hw =>
        -- an open search has tried a cutoff in every run and has at least one more trial left
        have hlen : tried.length = calls.countP Call.endsRun :=
          (hrun.stillOpen (show found.phase.cutoff.isSome from by rw [hfound]; rfl)).2
        have hpos : 0 < Nat.clog 2 (right - left + 1) := Nat.clog_pos (by omega) (by omega)
        simp only [trialsLeft] at hbound
        omega
  · rw [hdone] at hsearching
    cases hsearching with
    | @closed c hw =>
        exact ⟨c, rfl, hw.right_le_last, hw.right_reproduced, hw.left_failed,
          fun good mono hlast agree => hw.isLeast mono hlast agree⟩

/-- In a tree of four steps, where only the cutoffs from 2 on reproduce the bug, two runs find 2. -/
theorem transitionSearch_finds_boundary_of_four_steps :
    let e := ((new {} .always).startFromTree .root).after (.endRun (some .assertion) .root)
    let guide : EventTree := { EventTree.root with
      steps := #[EventTree.rootStep, EventTree.rootStep, EventTree.rootStep, EventTree.rootStep] }
    let start := (e.endRun (some .assertion) guide).2
    let calls : List Call := [.beginRun, .endRun none .root, .beginRun,
      .endRun (some .assertion) .root]
    e.phase = .treeReplay .search ∧ e.reproduces (some .assertion) = true ∧
      start.phase = .search 0 3 ∧ start.triedCutoffs calls = [(1, false), (2, true)] ∧
      (start.afterAll calls).phase = .completed (some 2) ∧ ∃ c, some 2 = some c ∧ c ≤ 3 ∧
        (c = 3 ∨ (c, true) ∈ [(1, false), (2, true)]) ∧
        (c = 0 ∨ (c - 1, false) ∈ [(1, false), (2, true)]) := by
  intro e guide start calls
  have hfound : (start.afterAll calls).phase = .completed (some 2) := by decide
  have hrep : e.reproduces (some .assertion) = true := rfl
  obtain ⟨-, -, -, -, hdone⟩ := transitionSearch_finds_boundary rfl hrep guide calls
  have htried : start.triedCutoffs calls = [(1, false), (2, true)] := by decide
  obtain ⟨c, hc, hle, hright, hleft, -⟩ := hdone (some 2) hfound
  exact ⟨rfl, rfl, rfl, htried, hfound, c, hc, hle, htried ▸ hright, htried ▸ hleft⟩

end Editor

end Interleave.Minimization
