import Interleave.Minimization.Minimized
import Interleave.Program.Harness
import Interleave.Proofs.Minimization.EagerCursor
import Interleave.Proofs.Minimization.WithheldSends

/-!
# The cutoff of a guide

The search for the critical transition cuts the guide off behind a step. A cursor that looks for an
operation stops there. One that looks for a choice does not: it follows the link of the step that is
being taken, wherever that leads. So a run can be led to take the steps up to the cutoff that are no
choices, and every choice that is chained to one of these (`EventTree.Legible`). No other step is
taken, each of these can be under a lenient policy, and a step behind the cutoff decides nothing but
a choice (`Session.taken_iff_legible`). The cutoff holds where no chain of choices crosses it.
-/

namespace Interleave

/-! ## Steps that can be taken -/

/-- The steps that a run can be led to take by a guide with the given cutoff: the root, the steps up
to the cutoff that are no choices, and the choices that directly follow on such a step or on another
one of these choices. -/
inductive EventTree.Legible (t : EventTree) (cutoff : Nat) : Nat → Prop where
  | root : Legible t cutoff 0
  | turn {j : Nat} {step : Step} (found : t.steps[j]? = some step)
      (kind : step.kind.isChoice = false) (within : j ≤ cutoff) : Legible t cutoff j
  | choice {i j : Nat} {step : Step} (before : Legible t cutoff i)
      (link : t.directChild? i = some j) (found : t.steps[j]? = some step)
      (kind : step.kind.isChoice = true) : Legible t cutoff j

/-- Only choices are taken from behind the cutoff. -/
theorem EventTree.Legible.le_of_not_choice {t : EventTree} {cutoff j : Nat} {step : Step}
    (h : t.Legible cutoff j) (hstep : t.steps[j]? = some step)
    (hkind : step.kind.isChoice = false) : j ≤ cutoff := by
  cases h with
  | root => exact Nat.zero_le cutoff
  | turn _ _ within => exact within
  | choice _ _ found kind =>
      rw [hstep] at found
      cases found
      rw [hkind] at kind
      cases kind

namespace Minimization

/-! ## Cursors -/

namespace Cursor

variable {c : Cursor} {guide : EventTree} {cutoff : Nat}

/-- The guide step that a cursor has read last: the one that is being taken or, where an operation
was not accepted for it, the next one. -/
def lastRead (c : Cursor) : Nat :=
  c.active.getD c.position

/-- A cursor in the given guide with the given cutoff that takes a legible step, if it takes one. -/
structure LedBy (guide : EventTree) (cutoff : Nat) (c : Cursor) : Prop where
  sameGuide : c.guide = guide
  sameCutoff : c.cutoff = some cutoff
  legible : ∀ i ∈ c.active, guide.Legible cutoff i

theorem ledBy_start (guide : EventTree) (cutoff : Nat) :
    (start guide (some cutoff)).LedBy guide cutoff where
  sameGuide := rfl
  sameCutoff := rfl
  legible i hi := by
    cases hi
    exact .root

theorem LedBy.deleteLink (h : c.LedBy guide cutoff) (link : Option Nat) :
    (c.deleteLink link).LedBy guide cutoff := by
  obtain ⟨deleted, hdelete⟩ := c.deleteLink_eq link
  rw [hdelete]
  exact ⟨h.sameGuide, h.sameCutoff, h.legible⟩

theorem LedBy.passDeleted (h : c.LedBy guide cutoff) (step : Step) :
    (c.passDeleted step).LedBy guide cutoff := by
  have hlinks := (h.deleteLink step.directChild).deleteLink step.createdChild
  exact ⟨hlinks.sameGuide, hlinks.sameCutoff, hlinks.legible⟩

/-- An operation is found for a step up to the cutoff that is no choice. -/
theorem LedBy.nextOperation (h : c.LedBy guide cutoff) (policy : MatchPolicy)
    (choices : List Snapshot) :
    (c.nextOperation policy choices).2.LedBy guide cutoff ∧
      ((c.nextOperation policy choices).1.isSome = true →
        (c.nextOperation policy choices).2.lastRead ≤ cutoff ∧
          guide.Legible cutoff (c.nextOperation policy choices).2.lastRead) := by
  fun_induction Cursor.nextOperation policy choices c with
  | case1 c hnone =>
      refine ⟨⟨h.sameGuide, h.sameCutoff, ?_⟩, ?_⟩
      · intro i hi
        cases hi
      · intro hsome
        cases hsome
  | case2 c step hstep hdeleted ih => exact ih (h.passDeleted step)
  | case3 c step hstep hdeleted hchoice ih => exact ih ⟨h.sameGuide, h.sameCutoff, h.legible⟩
  | case4 c step hstep hdeleted hchoice hfind ih => exact ih ⟨h.sameGuide, h.sameCutoff, h.legible⟩
  | case5 c step hstep hdeleted hchoice op hfind =>
      obtain ⟨hfound, hcut⟩ := nextStep?_eq_some_iff.mp hstep
      have hle : c.position ≤ cutoff := hcut cutoff h.sameCutoff
      have hlegible : guide.Legible cutoff c.position := by
        rw [h.sameGuide] at hfound
        exact .turn hfound (Bool.not_eq_true _ ▸ hchoice) hle
      split
      · refine ⟨⟨h.sameGuide, h.sameCutoff, ?_⟩, fun _ => ⟨hle, hlegible⟩⟩
        intro i hi
        cases hi
        exact hlegible
      · refine ⟨⟨h.sameGuide, h.sameCutoff, ?_⟩, fun _ => ⟨hle, hlegible⟩⟩
        intro i hi
        cases hi

/-- A choice is found for a legible step, which may lie behind the cutoff. -/
theorem LedBy.nextChoice (h : c.LedBy guide cutoff) (boolean : Bool) :
    (c.nextChoice boolean).2.LedBy guide cutoff ∧
      ((c.nextChoice boolean).1.isSome = true →
        guide.Legible cutoff (c.nextChoice boolean).2.lastRead) := by
  rcases nextChoice_eq_or boolean c with
    hnone | ⟨i, linked, j, step, hactive, hlinked, hlink, hstep, hkind, hsome⟩
  · rw [hnone]
    refine ⟨h, ?_⟩
    intro hsome
    cases hsome
  · have hlegible : guide.Legible cutoff j := by
      rw [h.sameGuide] at hlinked hstep
      have hchild := (EventTree.directChild?_of_step hlinked).trans hlink
      exact .choice (h.legible i hactive) hchild hstep (isChoice_of_isChoiceOf hkind).1
    rw [hsome]
    refine ⟨⟨h.sameGuide, h.sameCutoff, ?_⟩, fun _ => hlegible⟩
    intro i hi
    cases hi
    exact hlegible

theorem lastRead_deleteLink (c : Cursor) (link : Option Nat) :
    (c.deleteLink link).lastRead = c.lastRead := by
  cases link <;> rfl

/-- A send that is being taken lies up to the cutoff. -/
theorem LedBy.guideSend (h : c.LedBy guide cutoff) {step : Step}
    (hsend : Editor.guideSend? c = some step) :
    c.lastRead ≤ cutoff ∧ guide.Legible cutoff c.lastRead := by
  obtain ⟨hfound, hkind⟩ := Option.filter_eq_some_iff.mp hsend
  obtain ⟨i, hactive, hstep⟩ := Option.bind_eq_some_iff.mp hfound
  have hlegible := h.legible i hactive
  rw [h.sameGuide] at hstep
  have hle := hlegible.le_of_not_choice hstep (by
    rw [of_decide_eq_true hkind]
    rfl)
  rw [lastRead, hactive]
  exact ⟨hle, hlegible⟩

/-! ### Taking the next step -/

/-- An operation that is about to take the given step. -/
def taker (step : Step) : Snapshot :=
  { ready step.source with
    next := {
      kind := match step.kind with
        | .create => .create
        | .send => .send
        | .receive => .receive
        | _ => .start
      targetKind := .operation
      target := step.target
      matchingSend := none } }

theorem fits_taker (step : Step) : MatchPolicy.fits step (taker step).next = true := by
  unfold MatchPolicy.fits taker
  cases step.kind <;> simp

theorem nextOperation_of_taker {policy : MatchPolicy} (hpolicy : policy.Lenient) {step : Step}
    (hstep : c.nextStep? = some step) (hkept : c.isDeleted c.position = false)
    (hkind : step.kind.isChoice = false) :
    c.nextOperation policy [taker step] = (some step.source, c.take) := by
  have hfind : [taker step].find? (fun op => op.enabled && op.id = step.source) =
      some (taker step) := by
    simp [taker, ready]
  have haccepts : policy.accepts step (taker step) = true :=
    hpolicy step (taker step) hkind (fits_taker step)
  rw [nextOperation_of_found hstep hkept hkind hfind, if_pos haccepts]
  rfl

/-- With a suitable operation the next step that is no choice is taken. -/
theorem exists_taken {policy : MatchPolicy} (hpolicy : policy.Lenient) {j : Nat} {step : Step}
    (hstep : c.guide.steps[j]? = some step) (hkind : step.kind.isChoice = false)
    (hle : c.position ≤ j) (hcut : ∀ limit ∈ c.cutoff, j ≤ limit) (hkept : c.deleted = []) :
    ∃ op id i, c.position ≤ i ∧ i ≤ j ∧ c.nextOperation policy [op] =
      (some id, { c with position := i + 1, active := some i }) := by
  -- the induction is on the steps in front, of which only choices are passed over
  induction hn : j - c.position using Nat.strong_induction_on generalizing c with
  | _ n ih =>
      obtain ⟨next, hnext⟩ : ∃ next, c.guide.steps[c.position]? = some next := by
        have hbound := (Array.getElem?_eq_some_iff.mp hstep).1
        exact ⟨_, Array.getElem?_eq_getElem (Nat.lt_of_le_of_lt hle hbound)⟩
      have hfound := nextStep?_eq_some_iff.mpr
        ⟨hnext, fun limit hlimit => Nat.le_trans hle (hcut limit hlimit)⟩
      have hthere : c.isDeleted c.position = false := by simp [isDeleted, hkept]
      cases hchoice : next.kind.isChoice with
      | false =>
          exact ⟨taker next, next.source, c.position, Nat.le_refl _, hle,
            nextOperation_of_taker hpolicy hfound hthere hchoice⟩
      | true =>
          have hne : c.position ≠ j := by
            intro heq
            rw [heq, hstep] at hnext
            cases hnext
            rw [hchoice] at hkind
            cases hkind
          have hforward : c.position + 1 ≤ j := by omega
          obtain ⟨op, id, i, hfrom, hto, htaken⟩ := ih (j - (c.position + 1)) (by omega)
            (c := c.advance) hstep hforward hcut hkept rfl
          refine ⟨op, id, i, Nat.le_of_succ_le hfrom, hto, ?_⟩
          rw [nextOperation_of_choice hfound hthere hchoice, htaken]
          rfl

end Cursor

/-! ## Editors -/

namespace Editor

variable {e e' : Editor} {guide : EventTree} {cutoff : Nat}

/-- The editor's cursor is in the given guide and takes a legible step, if it takes one. -/
def LedBy (guide : EventTree) (cutoff : Nat) (e : Editor) : Prop :=
  ∃ c, e.cursor = some c ∧ c.LedBy guide cutoff

theorem LedBy.nextOperation (h : e.LedBy guide cutoff) (choices : List Snapshot) :
    ∃ c, (e.nextOperation choices).2.cursor = some c ∧ c.LedBy guide cutoff ∧
      ((e.nextOperation choices).1.isSome = true →
        c.lastRead ≤ cutoff ∧ guide.Legible cutoff c.lastRead) := by
  obtain ⟨c, hcursor, hled⟩ := h
  obtain ⟨hafter, hread⟩ := hled.nextOperation e.policy choices
  rw [Editor.nextOperation_of_cursor hcursor]
  exact ⟨_, rfl, hafter, hread⟩

theorem LedBy.nextChoice (h : e.LedBy guide cutoff) (boolean : Bool) :
    ∃ c, (e.nextChoice boolean).2.cursor = some c ∧ c.LedBy guide cutoff ∧
      ((e.nextChoice boolean).1.isSome = true → guide.Legible cutoff c.lastRead) := by
  obtain ⟨c, hcursor, hled⟩ := h
  obtain ⟨hafter, hread⟩ := hled.nextChoice boolean
  rw [Editor.nextChoice_of_cursor hcursor]
  exact ⟨_, rfl, hafter, hread⟩

theorem LedBy.nextBoolean (h : e.LedBy guide cutoff) :
    ∃ c, e.nextBoolean.2.cursor = some c ∧ c.LedBy guide cutoff ∧
      (e.nextBoolean.1.isSome = true → guide.Legible cutoff c.lastRead) := by
  obtain ⟨c, hcursor, hled, hread⟩ := h.nextChoice true
  unfold Editor.nextBoolean
  split
  · rename_i heditor
    rw [heditor] at hcursor hread
    exact ⟨c, hcursor, hled, fun _ => hread rfl⟩
  · rename_i heditor
    rw [heditor] at hcursor
    refine ⟨c, hcursor, hled, ?_⟩
    intro hsome
    cases hsome

theorem LedBy.nextInteger (h : e.LedBy guide cutoff) (max : UInt32) :
    ∃ c, (e.nextInteger max).2.cursor = some c ∧ c.LedBy guide cutoff ∧
      ((e.nextInteger max).1 ≠ .ok none → guide.Legible cutoff c.lastRead) := by
  obtain ⟨c, hcursor, hled, hread⟩ := h.nextChoice false
  unfold Editor.nextInteger
  split
  · rename_i heditor
    rw [heditor] at hcursor hread
    split <;> exact ⟨c, hcursor, hled, fun _ => hread rfl⟩
  · rename_i heditor
    rw [heditor] at hcursor
    exact ⟨c, hcursor, hled, fun hne => absurd rfl hne⟩

/-- In the search a send is withheld only for the guide send that is being taken. -/
theorem LedBy.onSend {left right : Nat} (h : e.LedBy guide cutoff)
    (hphase : e.phase = .search left right) (event : Event) :
    ∃ c, (e.onSend event).2.cursor = some c ∧ c.LedBy guide cutoff ∧
      ((e.onSend event).1 = .withhold →
        c.lastRead ≤ cutoff ∧ guide.Legible cutoff c.lastRead) := by
  obtain ⟨c, hcursor, hled⟩ := h
  rw [Editor.onSend, hcursor]
  dsimp only
  split
  · refine ⟨c, hcursor, hled, ?_⟩
    intro hwithhold
    cases hwithhold
  · split
    · rename_i hwithheld
      have hguide : (guideSend? c).any (fun step => c.guide.isWithheld step.index) = true := by
        simpa [withholds, hphase] using hwithheld
      cases hsend : guideSend? c with
      | none =>
          rw [hsend] at hguide
          cases hguide
      | some step =>
          refine ⟨_, rfl, hled.deleteLink _, fun _ => ?_⟩
          rw [Cursor.lastRead_deleteLink]
          exact hled.guideSend hsend
    · refine ⟨c, rfl, hled, ?_⟩
      intro hwithhold
      cases hwithhold

end Editor

/-! ## Sessions -/

/-- Whether the exchange is a request for a nondeterministic choice. -/
def asksChoice : Exchange → Bool
  | .boolean _ _ | .integer _ _ => true
  | _ => false

namespace Session

variable {τ : Type} {guide : EventTree} {cutoff : Nat} {s s' : Session τ}

theorem answer_askSuffix {α : Type} (s s₁ : Session τ) (h : s₁.suffix = s.suffix)
    (request : τ → Answer α × τ) (otherwise : Option α) :
    (s₁.askSuffix request otherwise).1 = (s.askSuffix request otherwise).1 := by
  rw [askSuffix, askSuffix, h]
  cases s.suffix <;> rfl

theorem answer_goFree {α : Type} (s s₁ : Session τ) (h : s₁.suffix = s.suffix)
    (request : τ → Answer α × τ) (otherwise : Option α) :
    (s₁.goFree request otherwise).1 = (s.askSuffix request otherwise).1 :=
  answer_askSuffix s { s₁ with mode := .free } h request otherwise

/-- A session in a run of the search, with its cursor in the given guide. -/
structure Searches (guide : EventTree) (cutoff : Nat) (s : Session τ) : Prop where
  mode : s.mode ≠ .replay
  phase : ∃ left right, s.editor.phase = .search left right
  led : s.editor.LedBy guide cutoff

/-- A decision of the editor that is not the end of a run leaves the session in its search. -/
theorem Searches.withEditor (h : s.Searches guide cutoff) {editor : Editor}
    (hsearch : s.editor.SameSearch editor) (hled : editor.LedBy guide cutoff) :
    Searches guide cutoff { s.countStep with editor } where
  mode := h.mode
  phase := by
    obtain ⟨left, right, hphase⟩ := h.phase
    exact ⟨left, right, hsearch.phase.trans hphase⟩
  led := hled

theorem Searches.askSuffix {α : Type} (h : s.Searches guide cutoff) (request : τ → Answer α × τ)
    (otherwise : Option α) : (s.askSuffix request otherwise).2.Searches guide cutoff where
  mode := by
    rw [mode_askSuffix]
    exact h.mode
  phase := by
    rw [editor_askSuffix]
    exact h.phase
  led := by
    rw [editor_askSuffix]
    exact h.led

theorem Searches.goFree {α : Type} (h : s.Searches guide cutoff) (request : τ → Answer α × τ)
    (otherwise : Option α) : (s.goFree request otherwise).2.Searches guide cutoff := by
  have hfree : Searches guide cutoff { s with mode := .free } := by
    refine ⟨?_, h.phase, h.led⟩
    intro hmode
    cases hmode
  exact hfree.askSuffix request otherwise

theorem Searches.countStep (h : s.Searches guide cutoff) : s.countStep.Searches guide cutoff :=
  ⟨h.mode, h.phase, h.led⟩

section Free

variable [Strategy τ] (hmode : s.mode = .free)
include hmode

theorem nextOperation_of_free (choices : List Snapshot) (current : OperationId) :
    s.nextOperation choices current = s.countStep.goFree (Strategy.nextOperation · choices current)
      ((choices.find? fun op : Snapshot => op.enabled).map Snapshot.id) := by
  simp only [nextOperation, countStep, hmode]

theorem nextBoolean_of_free (max : UInt32) :
    s.nextBoolean max = s.countStep.goFree (Strategy.nextBoolean · max) (some false) := by
  simp only [nextBoolean, countStep, hmode]

theorem nextInteger_of_free (max : UInt32) :
    s.nextInteger max = s.countStep.goFree (Strategy.nextInteger · max) (some 0) := by
  simp only [nextInteger, countStep, hmode]

end Free

variable [Strategy τ]

/-- The guide decides an exchange: the editor of a guided session has an answer to a request, or it
withholds a send. -/
def GuideDecides (s : Session τ) : Exchange → Prop
  | .operation choices _ _ => s.mode = .guided ∧ (s.editor.nextOperation choices).1.isSome = true
  | .boolean _ _ => s.mode = .guided ∧ s.editor.nextBoolean.1.isSome = true
  | .integer max _ => s.mode = .guided ∧ (s.editor.nextInteger max).1 ≠ .ok none
  | .send _ _ event _ => (s.editor.onSend event).1 = .withhold
  | _ => False

/-- The guide step of the given index decides an exchange, which leads to the second session. -/
def DecidedBy (s s' : Session τ) (e : Exchange) (j : Nat) : Prop :=
  s.GuideDecides e ∧ ∃ c ∈ s'.editor.cursor, c.lastRead = j

/-- The answer of an exchange is that of the suffix or, without a suffix, the first enabled
operation, `false` or 0, and a send is delivered. -/
def SuffixDecides (s : Session τ) : Exchange → Prop
  | .operation choices current answer =>
      answer = (s.askSuffix (Strategy.nextOperation · choices current)
        ((choices.find? (·.enabled)).map (·.id))).1
  | .boolean max answer => answer = (s.askSuffix (Strategy.nextBoolean · max) (some false)).1
  | .integer max answer => answer = (s.askSuffix (Strategy.nextInteger · max) (some 0)).1
  | .send _ _ _ delivery => delivery = .deliver
  | _ => True

/-- What an exchange makes of a session in a run of the search: it is decided by a legible guide
step or by the suffix, and by a step behind the cutoff only if it is a choice. -/
structure Abides (guide : EventTree) (cutoff : Nat) (s : Session τ) (e : Exchange)
    (s' : Session τ) : Prop where
  searches : s'.Searches guide cutoff
  legible : ∀ j, s.DecidedBy s' e j →
    guide.Legible cutoff j ∧ (asksChoice e = false → j ≤ cutoff)
  decides : s.GuideDecides e ∨ s.SuffixDecides e

/-- The editor has an answer, and its cursor shows the step that it has been read from. -/
theorem Abides.of_guide {e : Exchange} {c : Cursor} (hsearches : s'.Searches guide cutoff)
    (hcursor : s'.editor.cursor = some c) (hdecides : s.GuideDecides e)
    (hread : guide.Legible cutoff c.lastRead ∧ (asksChoice e = false → c.lastRead ≤ cutoff)) :
    Abides guide cutoff s e s' where
  searches := hsearches
  legible j hdecided := by
    obtain ⟨-, c', hc', rfl⟩ := hdecided
    rw [hcursor] at hc'
    cases hc'
    exact hread
  decides := .inl hdecides

/-- The editor has no answer. -/
theorem Abides.of_suffix {e : Exchange} (hsearches : s'.Searches guide cutoff)
    (hnot : ¬s.GuideDecides e) (hsuffix : s.SuffixDecides e) : Abides guide cutoff s e s' where
  searches := hsearches
  legible _ hdecided := absurd hdecided.1 hnot
  decides := .inr hsuffix

theorem Searches.nextOperation (h : s.Searches guide cutoff) (choices : List Snapshot)
    (current : OperationId) :
    Abides guide cutoff s (.operation choices current (s.nextOperation choices current).1)
      (s.nextOperation choices current).2 := by
  cases hmode : s.mode with
  | replay => exact absurd hmode h.mode
  | free =>
      rw [nextOperation_of_free hmode]
      refine .of_suffix (h.countStep.goFree _ _) (fun hguide => ?_)
        (answer_goFree s s.countStep rfl _ _)
      cases hmode.symm.trans hguide.1
  | guided =>
      obtain ⟨c, hcursor, hled, hread⟩ := h.led.nextOperation choices
      have hsearch := s.editor.sameSearch_nextOperation choices
      rw [nextOperation_of_guided hmode]
      split
      · rename_i id editor heditor
        rw [heditor] at hcursor hread hsearch
        have hdecides : s.GuideDecides (.operation choices current (.ok (some id))) :=
          ⟨hmode, by rw [heditor]; rfl⟩
        exact .of_guide (h.withEditor hsearch ⟨c, hcursor, hled⟩) hcursor hdecides
          ⟨(hread rfl).2, fun _ => (hread rfl).1⟩
      · rename_i editor heditor
        rw [heditor] at hcursor hsearch
        refine .of_suffix ((h.withEditor hsearch ⟨c, hcursor, hled⟩).goFree _ _) (fun hguide => ?_)
          (answer_goFree s { s.countStep with editor } rfl _ _)
        obtain ⟨-, hsome⟩ := hguide
        rw [heditor] at hsome
        cases hsome

theorem Searches.nextBoolean (h : s.Searches guide cutoff) (max : UInt32) :
    Abides guide cutoff s (.boolean max (s.nextBoolean max).1) (s.nextBoolean max).2 := by
  cases hmode : s.mode with
  | replay => exact absurd hmode h.mode
  | free =>
      rw [nextBoolean_of_free hmode]
      refine .of_suffix (h.countStep.goFree _ _) (fun hguide => ?_)
        (answer_goFree s s.countStep rfl _ _)
      cases hmode.symm.trans hguide.1
  | guided =>
      obtain ⟨c, hcursor, hled, hread⟩ := h.led.nextBoolean
      have hsearch := s.editor.asked_nextBoolean.sameSearch
      rw [nextBoolean_of_guided hmode]
      split
      · rename_i b editor heditor
        rw [heditor] at hcursor hread hsearch
        have hdecides : s.GuideDecides (.boolean max (.ok (some b))) :=
          ⟨hmode, by rw [heditor]; rfl⟩
        exact .of_guide (h.withEditor hsearch ⟨c, hcursor, hled⟩) hcursor hdecides
          ⟨hread rfl, fun hturn => by cases hturn⟩
      · rename_i editor heditor
        rw [heditor] at hcursor hsearch
        refine .of_suffix ((h.withEditor hsearch ⟨c, hcursor, hled⟩).askSuffix _ _)
          (fun hguide => ?_) (answer_askSuffix s { s.countStep with editor } rfl _ _)
        obtain ⟨-, hsome⟩ := hguide
        rw [heditor] at hsome
        cases hsome

theorem Searches.nextInteger (h : s.Searches guide cutoff) (max : UInt32) :
    Abides guide cutoff s (.integer max (s.nextInteger max).1) (s.nextInteger max).2 := by
  cases hmode : s.mode with
  | replay => exact absurd hmode h.mode
  | free =>
      rw [nextInteger_of_free hmode]
      refine .of_suffix (h.countStep.goFree _ _) (fun hguide => ?_)
        (answer_goFree s s.countStep rfl _ _)
      cases hmode.symm.trans hguide.1
  | guided =>
      obtain ⟨c, hcursor, hled, hread⟩ := h.led.nextInteger max
      have hsearch := (s.editor.asked_nextInteger max).sameSearch
      -- a value out of range is the guide's decision as well
      have hanswer : ∀ {answer editor}, s.editor.nextInteger max = (answer, editor) →
          answer ≠ .ok none →
          ∀ given, Abides guide cutoff s (.integer max given) { s.countStep with editor } := by
        intro answer editor heditor hne given
        rw [heditor] at hcursor hread hsearch
        have hdecides : s.GuideDecides (.integer max given) := ⟨hmode, by rw [heditor]; exact hne⟩
        exact .of_guide (h.withEditor hsearch ⟨c, hcursor, hled⟩) hcursor hdecides
          ⟨hread hne, fun hturn => by cases hturn⟩
      rw [nextInteger_of_guided hmode]
      split
      · rename_i heditor
        exact hanswer heditor (fun hnone => by cases hnone) _
      · rename_i heditor
        exact hanswer heditor (fun hnone => by cases hnone) _
      · rename_i editor heditor
        rw [heditor] at hcursor hsearch
        refine .of_suffix ((h.withEditor hsearch ⟨c, hcursor, hled⟩).askSuffix _ _)
          (fun hguide => ?_) (answer_askSuffix s { s.countStep with editor } rfl _ _)
        obtain ⟨-, hne⟩ := hguide
        rw [heditor] at hne
        exact hne rfl

theorem Searches.onSend (h : s.Searches guide cutoff) (sender target : OperationId)
    (event : Event) :
    Abides guide cutoff s (.send sender target event (s.onSend sender target event).1)
      (s.onSend sender target event).2 := by
  obtain ⟨left, right, hphase⟩ := h.phase
  obtain ⟨c, hcursor, hled, hread⟩ := h.led.onSend hphase event
  have hafter : (s.onSend sender target event).2.Searches guide cutoff :=
    ⟨h.mode, ⟨left, right, (s.editor.sameSearch_onSend event).phase.trans hphase⟩,
      ⟨c, hcursor, hled⟩⟩
  cases hdelivery : (s.editor.onSend event).1 with
  | deliver =>
      refine .of_suffix hafter (fun hguide => ?_) hdelivery
      rw [show (s.editor.onSend event).1 = .withhold from hguide] at hdelivery
      cases hdelivery
  | withhold =>
      exact .of_guide hafter hcursor hdelivery
        ⟨(hread hdelivery).2, fun _ => (hread hdelivery).1⟩

/-- Every exchange in a run of the search is decided by a legible guide step or by the suffix. -/
theorem Searches.moves {e : Exchange} (h : s.Searches guide cutoff) (hmoves : e.Moves s s') :
    Abides guide cutoff s e s' := by
  cases e with
  | bound reached =>
      rw [hmoves.2]
      exact .of_suffix h id trivial
  | fairness fair =>
      rw [hmoves.2]
      exact .of_suffix h id trivial
  | operation choices current answer =>
      have habides := h.nextOperation choices current
      rwa [show s.nextOperation choices current = (answer, s') from hmoves] at habides
  | boolean max answer =>
      have habides := h.nextBoolean max
      rwa [show s.nextBoolean max = (answer, s') from hmoves] at habides
  | integer max answer =>
      have habides := h.nextInteger max
      rwa [show s.nextInteger max = (answer, s') from hmoves] at habides
  | notice n =>
      rw [← show { s with recorder := s.recorder.record n } = s' from hmoves]
      exact .of_suffix ⟨h.mode, h.phase, h.led⟩ id trivial
  | send sender target event delivery =>
      have habides := h.onSend sender target event
      rwa [show s.onSend sender target event = (delivery, s') from hmoves] at habides
  | logged d =>
      rw [show s' = s from hmoves]
      exact .of_suffix h id trivial

theorem Searches.reaches (h : s.Searches guide cutoff) (hreaches : Strategy.Reaches s s') :
    s'.Searches guide cutoff := by
  induction hreaches with
  | refl => exact h
  | step _ hmoves ih => exact (ih.moves hmoves).searches

/-! ### Leading a run to a step -/

/-- The session is guided by a cursor of which nothing is deleted, under a lenient policy. -/
structure StandsAt (guide : EventTree) (cutoff position i : Nat) (s : Session τ) : Prop where
  lenient : s.editor.policy.Lenient
  mode : s.mode = .guided
  cursor : s.editor.cursor = some ⟨guide, position, some i, [], some cutoff⟩

/-- Where operations are asked for one at a time, each step that is no choice is taken in turn. -/
theorem StandsAt.exists_turn {position active j : Nat} {step : Step}
    (h : s.StandsAt guide cutoff position active) (hstep : guide.steps[j]? = some step)
    (hkind : step.kind.isChoice = false) (hle : position ≤ j) (hcut : j ≤ cutoff) :
    ∃ s', Strategy.Reaches s s' ∧ s'.StandsAt guide cutoff (j + 1) j := by
  -- the induction is on the way that is left, of which one request may pass several choices
  induction hn : j - position using Nat.strong_induction_on generalizing s position active with
  | _ n ih =>
      obtain ⟨op, id, i, hfrom, hto, htaken⟩ := Cursor.exists_taken h.lenient
        (c := ⟨guide, position, some active, [], some cutoff⟩) hstep hkind hle
        (fun limit hlimit => by cases hlimit; exact hcut) rfl
      have hforward : position ≤ i := hfrom
      let editor : Editor :=
        { s.editor with cursor := some ⟨guide, i + 1, some i, [], some cutoff⟩ }
      have heditor : s.editor.nextOperation [op] = (some id, editor) := by
        rw [Editor.nextOperation_of_cursor h.cursor, htaken]
      have hmoves : (Exchange.operation [op] .harness (.ok (some id))).Moves s
          { s.countStep with editor } := by
        show s.nextOperation [op] .harness = _
        rw [nextOperation_of_guided h.mode, heditor]
      have hstands : StandsAt guide cutoff (i + 1) i { s.countStep with editor } :=
        ⟨h.lenient, h.mode, rfl⟩
      rcases Nat.eq_or_lt_of_le hto with rfl | hlt
      · exact ⟨_, .step .refl hmoves, hstands⟩
      · obtain ⟨s', hreaches, hlast⟩ := ih (j - (i + 1)) (by omega) hstands hlt rfl
        exact ⟨s', .trans (.step .refl hmoves) hreaches, hlast⟩

/-- The choice that directly follows on the step being taken is taken when it is asked for. -/
theorem StandsAt.exists_choice {position i j : Nat} {step : Step}
    (h : s.StandsAt guide cutoff position i) (hlink : guide.directChild? i = some j)
    (hstep : guide.steps[j]? = some step) (hkind : step.kind.isChoice = true) :
    ∃ s', Strategy.Reaches s s' ∧ s'.StandsAt guide cutoff position j := by
  let editor : Editor := { s.editor with cursor := some ⟨guide, position, some j, [], some cutoff⟩ }
  have hstands : StandsAt guide cutoff position j { s.countStep with editor } :=
    ⟨h.lenient, h.mode, rfl⟩
  obtain ⟨linked, hlinked, hdirect⟩ := Option.bind_eq_some_iff.mp hlink
  have htaken : Cursor.activeStep? ⟨guide, position, some i, [], some cutoff⟩ = some linked :=
    hlinked
  have hchoice : ∀ boolean, Cursor.isChoiceOf boolean step.kind = true →
      s.editor.nextChoice boolean = (some step.kind, editor) := by
    intro boolean hof
    rw [Editor.nextChoice_of_cursor h.cursor,
      Cursor.nextChoice_of_link htaken hdirect hstep hof rfl]
  cases hk : step.kind with
  | boolean b =>
      have hmoves : (Exchange.boolean 2 (.ok (some b))).Moves s { s.countStep with editor } := by
        show s.nextBoolean 2 = _
        rw [nextBoolean_of_guided h.mode, Editor.nextBoolean, hchoice true (by rw [hk]; rfl), hk]
      exact ⟨_, .step .refl hmoves, hstands⟩
  | integer n =>
      -- the step is taken even if its value is out of range
      have hmoves : (s.nextInteger 0).2 = { s.countStep with editor } := by
        rw [nextInteger_of_guided h.mode, Editor.nextInteger, hchoice false (by rw [hk]; rfl), hk]
        dsimp only
        split <;> rename_i heq <;> split at heq <;> cases heq <;> rfl
      exact ⟨_, .step .refl (e := .integer 0 (s.nextInteger 0).1) rfl, hmoves ▸ hstands⟩
  | _ =>
      rw [hk] at hkind
      cases hkind

/-- Every legible step can be taken. -/
theorem StandsAt.exists_legible {j : Nat} (h : s.StandsAt guide cutoff 1 0)
    (hlegible : guide.Legible cutoff j) :
    ∃ s' position, Strategy.Reaches s s' ∧ s'.StandsAt guide cutoff position j := by
  induction hlegible with
  | root => exact ⟨s, 1, .refl, h⟩
  | @turn j step hstep hkind hcut =>
      rcases Nat.eq_zero_or_pos j with rfl | hpos
      · exact ⟨s, 1, .refl, h⟩
      · obtain ⟨s', hreaches, hstands⟩ := h.exists_turn hstep hkind hpos hcut
        exact ⟨s', j + 1, hreaches, hstands⟩
  | choice _ hlink hstep hkind ih =>
      obtain ⟨s', position, hbefore, hstands⟩ := ih
      obtain ⟨s'', hafter, hlast⟩ := hstands.exists_choice hlink hstep hkind
      exact ⟨s'', position, hbefore.trans hafter, hlast⟩

/-! ### Runs of the search -/

/-- A run of the session can be led to take the guide step of the given index. -/
def CanTake (s : Session τ) (j : Nat) : Prop :=
  ∃ q, Strategy.Reaches s q ∧ ∃ c ∈ q.editor.cursor, c.active = some j

/-- The cutoff is hard: whatever the session is asked in its run, no guide step behind the cutoff is
taken or decides anything, and what no guide step decides the suffix does. -/
def KeepsTo (s : Session τ) (cutoff : Nat) : Prop :=
  ∀ q, Strategy.Reaches s q → (∀ c ∈ q.editor.cursor, ∀ j ∈ c.active, j ≤ cutoff) ∧
    ∀ e q', e.Moves q q' →
      (∀ j, q.DecidedBy q' e j → j ≤ cutoff) ∧ (q.GuideDecides e ∨ q.SuffixDecides e)

/-- In a run of the search for the critical transition only legible guide steps can be taken, every
decision is made by one of them or by the suffix, and one that lies behind the cutoff decides a
choice. So the cutoff is hard if no chain of choices crosses it. Under a lenient policy every
legible step can be taken, and the cutoff is hard only then. -/
theorem taken_iff_legible {left right : Nat} (hphase : s.editor.phase = .search left right)
    (hbest : s.editor.best = some guide) :
    let cutoff := Phase.middle left right
    (∀ j, s.plan.CanTake j → guide.Legible cutoff j) ∧
      (∀ q, Strategy.Reaches s.plan q → ∀ e q', e.Moves q q' →
        (q.GuideDecides e ∨ q.SuffixDecides e) ∧
          ∀ j, q.DecidedBy q' e j → guide.Legible cutoff j ∧ (asksChoice e = false → j ≤ cutoff)) ∧
      ((∀ j, guide.Legible cutoff j → j ≤ cutoff) → s.plan.KeepsTo cutoff) ∧
      (s.editor.policy.Lenient → (∀ j, s.plan.CanTake j ↔ guide.Legible cutoff j) ∧
        (s.plan.KeepsTo cutoff ↔ ∀ j, guide.Legible cutoff j → j ≤ cutoff)) := by
  intro cutoff
  have hplanned := s.planned_plan
  have hsearch := s.sameSearch_plan
  have hphase' : s.plan.editor.phase = .search left right := hsearch.phase.trans hphase
  have hcursor : s.plan.editor.cursor = some (.start guide (some cutoff)) := by
    obtain ⟨cursor, seen, hsame⟩ := hsearch
    have hbest' : s.plan.editor.best = some guide := by
      rw [hsame]
      exact hbest
    rw [hplanned.cursor_of_guided (by rw [hphase']; rfl), hbest', hphase']
    rfl
  have hmode : s.plan.mode = .guided := hplanned.mode (by rw [hphase']; rfl)
  have hsearches : s.plan.Searches guide cutoff :=
    ⟨by rw [hmode]; decide, ⟨left, right, hphase'⟩, ⟨_, hcursor, Cursor.ledBy_start guide cutoff⟩⟩
  have htaken : ∀ j, s.plan.CanTake j → guide.Legible cutoff j := by
    rintro j ⟨q, hreaches, c, hc, hactive⟩
    obtain ⟨c', hc', hled⟩ := (hsearches.reaches hreaches).led
    rw [hc'] at hc
    cases hc
    exact hled.legible j hactive
  have hkeeps : (∀ j, guide.Legible cutoff j → j ≤ cutoff) → s.plan.KeepsTo cutoff := by
    intro hle q hreaches
    refine ⟨fun c hc j hj => hle j (htaken j ⟨q, hreaches, c, hc, hj⟩), fun e q' hmoves => ?_⟩
    have habides := (hsearches.reaches hreaches).moves hmoves
    exact ⟨fun j hdecided => hle j (habides.legible j hdecided).1, habides.decides⟩
  refine ⟨htaken, fun q hreaches e q' hmoves => ?_, hkeeps, fun hpolicy => ?_⟩
  · have habides := (hsearches.reaches hreaches).moves hmoves
    exact ⟨habides.decides, habides.legible⟩
  · -- a lenient policy accepts the operation that a run has to be asked with
    have hlenient : s.plan.editor.policy.Lenient := by
      rw [hsearch.policy]
      exact hpolicy
    have hstands : s.plan.StandsAt guide cutoff 1 0 := ⟨hlenient, hmode, hcursor⟩
    have htakes : ∀ j, guide.Legible cutoff j → s.plan.CanTake j := by
      intro j hlegible
      obtain ⟨q, position, hreaches, hq⟩ := hstands.exists_legible hlegible
      exact ⟨q, hreaches, _, hq.cursor, rfl⟩
    refine ⟨fun j => ⟨htaken j, htakes j⟩, fun hhard j hlegible => ?_, hkeeps⟩
    obtain ⟨q, hreaches, c, hc, hactive⟩ := htakes j hlegible
    exact (hhard q hreaches).1 c hc j hactive

end Session

end Minimization

/-! ## A toss behind the cutoff -/

/-- A harness that tosses a coin and fails if it shows heads. -/
def failingToss : Program Nat where
  act
    | _, 0 => .boolean none fun heads => if heads then 1 else 2
    | _, 1 => .fail "heads"
    | _, _ => .finish
  main := 0

namespace Minimization.Session

/-- A minimization of it. -/
def tossSession : Session RandomWalk :=
  .ofSchedule #[.boolean true] {} {} {} .always none

/-- The minimization three runs later, at the start of its search. -/
def tossSearch : Session RandomWalk :=
  failingToss.successor {} 0 (failingToss.successor {} 0 (failingToss.successor {} 0 tossSession))

/-- The toss, step 1 of the guide, can be taken with the cutoff at the root. -/
theorem taken_iff_legible_of_failingToss :
    tossSearch.editor.phase = .search 0 1 ∧
      ∃ guide, tossSearch.editor.best = some guide ∧ guide.Legible 0 1 ∧
        tossSearch.plan.CanTake 1 ∧ ¬tossSearch.plan.KeepsTo 0 := by
  have hphase : tossSearch.editor.phase = .search 0 1 := by decide +kernel
  have hguide : ∀ guide ∈ tossSearch.editor.best, guide.directChild? 0 = some 1 ∧
      (guide.steps[1]?.map (·.kind)) = some (.boolean true) := by
    decide +kernel
  have hsome : tossSearch.editor.best.isSome = true := by decide +kernel
  obtain ⟨guide, hbest⟩ := Option.isSome_iff_exists.mp hsome
  obtain ⟨hlink, htoss⟩ := hguide guide hbest
  obtain ⟨step, hstep, hkind⟩ := Option.map_eq_some_iff.mp htoss
  have hlegible : guide.Legible 0 1 := .choice .root hlink hstep (by rw [hkind]; rfl)
  obtain ⟨-, -, -, hlenient⟩ := taken_iff_legible hphase hbest
  have hpolicy : tossSearch.editor.policy.Lenient := by
    rw [show tossSearch.editor.policy = .always from rfl]
    exact MatchPolicy.lenient_always
  obtain ⟨htaken, hkeeps⟩ := hlenient hpolicy
  refine ⟨hphase, guide, hbest, hlegible, (htaken 1).mpr hlegible, fun h => ?_⟩
  have hle : 1 ≤ Phase.middle 0 1 := hkeeps.mp h 1 hlegible
  exact absurd hle (by decide)

/-- With the cutoff at the root the program gets the toss from the guide, which lies behind the
cutoff, where the suffix would say `false`. It fails, and the root is taken for the critical
transition. -/
theorem cutoff_leaks_of_failingToss :
    failingToss.Minimizes {} tossSession tossSearch ∧
      tossSearch.editor.phase = .search 0 1 ∧ Phase.middle 0 1 = 0 ∧
      (tossSearch.nextBoolean 2).1 = .ok (some true) ∧
      DecidedBy tossSearch (tossSearch.nextBoolean 2).2 (.boolean 2 (.ok (some true))) 1 ∧
      ¬tossSearch.SuffixDecides (.boolean 2 (.ok (some true))) ∧ ¬tossSearch.KeepsTo 0 ∧
      (minimize {} tossSession failingToss.harness #[]).1.toOption.map (·.report.transition) =
        some (some 0) := by
  have hminimizes : failingToss.Minimizes {} tossSession tossSearch :=
    ((Program.Minimizes.successor .first (by decide +kernel)).successor
      (by decide +kernel)).successor (by decide +kernel)
  have hanswer : (tossSearch.nextBoolean 2).1 = .ok (some true) := by decide +kernel
  have hguided : tossSearch.GuideDecides (.boolean 2 (.ok (some true))) :=
    ⟨by decide +kernel, by decide +kernel⟩
  have hcursor : (tossSearch.nextBoolean 2).2.editor.cursor.isSome = true := by decide +kernel
  have hread : ∀ c ∈ (tossSearch.nextBoolean 2).2.editor.cursor,
      c.active = some 1 ∧ c.lastRead = 1 := by
    decide +kernel
  obtain ⟨c, hc⟩ := Option.isSome_iff_exists.mp hcursor
  obtain ⟨hactive, hlast⟩ := hread c hc
  refine ⟨hminimizes, by decide +kernel, rfl, hanswer, ⟨hguided, c, hc, hlast⟩, ?_, ?_,
    by decide +kernel⟩
  · have hother : (tossSearch.askSuffix (Strategy.nextBoolean · 2) (some false)).1 =
        .ok (some false) := by
      decide +kernel
    intro hsuffix
    have hsame := hsuffix.trans hother
    cases hsame
  · intro hkeeps
    have hreaches : Strategy.Reaches tossSearch (tossSearch.nextBoolean 2).2 :=
      .step .refl (e := .boolean 2 (tossSearch.nextBoolean 2).1) rfl
    exact absurd ((hkeeps _ hreaches).1 c hc 1 hactive) (by decide)

end Minimization.Session

end Interleave
