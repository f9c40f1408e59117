import Interleave.Strategy.Basic

/-!
# Exchanges with a strategy

A run meets its strategy only in requests, notices and questions about bound and fairness. An
`Exchange` is one of these together with its answer, and `Follows s l s'` says that a strategy in
state `s` holds its side of the dialogue `l` and is then in state `s'`. Two strategies that follow
the same dialogue cannot be told apart by a run. The decisions that the scheduler logs stand in the
dialogue as well, although a strategy does not hear of them.

A `Transcript` is a strategy that answers like another one and takes down what it hears.
-/

namespace Interleave

/-- One exchange of a run with its strategy, or a decision that is logged. -/
inductive Exchange where
  | bound (reached : Bool)
  | fairness (fair : Bool)
  | operation (choices : List Snapshot) (current : OperationId) (answer : Answer OperationId)
  | boolean (max : UInt32) (answer : Answer Bool)
  | integer (max : UInt32) (answer : Answer UInt32)
  | notice (n : Notice)
  | send (sender target : OperationId) (event : Event) (delivery : Delivery)
  | logged (d : Decision)

/-- A decision without the identity of a fair choice. -/
def Decision.plain : Decision → Decision
  | .fairBoolean _ b => .boolean b
  | d => d

namespace Exchange

/-- Whether the exchange is a request or a notice, which a strategy may remember. -/
def isHeard : Exchange → Bool
  | .bound _ | .fairness _ | .logged _ => false
  | .operation _ _ _ | .boolean _ _ | .integer _ _ | .notice _ | .send _ _ _ _ => true

/-- Whether the exchange is a request for a decision. -/
def isRequest : Exchange → Bool
  | .operation _ _ _ | .boolean _ _ | .integer _ _ => true
  | .bound _ | .fairness _ | .notice _ | .send _ _ _ _ | .logged _ => false

/-- The decision that is logged, if the exchange is that. -/
def logged? : Exchange → Option Decision
  | .logged d => some d
  | _ => none

/-- The decision that an answer contains, if there is one. -/
def verdict? : Exchange → Option Decision
  | .operation _ _ (.ok (some id)) => some (.schedule id)
  | .boolean _ (.ok (some b)) => some (.boolean b)
  | .integer _ (.ok (some n)) => some (.integer n)
  | _ => none

/-- The answer, if there is one, is not an error, and a decision is an enabled operation or in
range. -/
def Legal : Exchange → Prop
  | .operation choices _ answer =>
      ∃ id?, answer = .ok id? ∧ ∀ id ∈ id?, ∃ op ∈ choices, op.id = id ∧ op.enabled
  | .boolean _ answer => ∃ b?, answer = .ok b?
  | .integer max answer => ∃ n?, answer = .ok n? ∧ ∀ n ∈ n?, isInRange n max
  | _ => True

/-- Whether the exchange is a request that is answered with no decision. -/
def isDeclined : Exchange → Bool
  | .operation _ _ (.ok none) | .boolean _ (.ok none) | .integer _ (.ok none) => true
  | _ => false

/-- A request is declined only where no operation is enabled. -/
def Decided : Exchange → Prop
  | .operation choices _ (.ok none) => ∀ op ∈ choices, op.enabled = false
  | .boolean _ (.ok none) | .integer _ (.ok none) => False
  | _ => True

instance : DecidablePred Decided
  | .operation choices _ (.ok none) =>
      inferInstanceAs (Decidable (∀ op ∈ choices, op.enabled = false))
  | .boolean _ (.ok none) | .integer _ (.ok none) => isFalse id
  | .operation _ _ (.ok (some _)) | .operation _ _ (.error _) | .boolean _ (.ok (some _))
  | .boolean _ (.error _) | .integer _ (.ok (some _)) | .integer _ (.error _) => isTrue trivial
  | .bound _ | .fairness _ | .notice _ | .send _ _ _ _ | .logged _ => isTrue trivial

variable {σ : Type} [Strategy σ]

/-- The exchange takes a strategy from one state to another. -/
def Moves (s : σ) : Exchange → σ → Prop
  | .bound reached, s' => Strategy.boundReached s = reached ∧ s' = s
  | .fairness fair, s' => Strategy.isFair s = fair ∧ s' = s
  | .operation choices current answer, s' =>
      Strategy.nextOperation s choices current = (answer, s')
  | .boolean max answer, s' => Strategy.nextBoolean s max = (answer, s')
  | .integer max answer, s' => Strategy.nextInteger s max = (answer, s')
  | .notice n, s' => Strategy.observe s n = s'
  | .send sender target event delivery, s' =>
      Strategy.onSend s sender target event = (delivery, s')
  | .logged _, s' => s' = s

end Exchange

/-- The decisions logged in a dialogue, in order. -/
def logged (l : List Exchange) : List Decision :=
  l.filterMap Exchange.logged?

@[simp]
theorem logged_nil : logged [] = [] := rfl

@[simp]
theorem logged_append (l l' : List Exchange) : logged (l ++ l') = logged l ++ logged l' :=
  List.filterMap_append

/-- The decisions that the answers of a dialogue contain, in order. -/
def verdicts (l : List Exchange) : List Decision :=
  l.filterMap Exchange.verdict?

@[simp]
theorem verdicts_nil : verdicts [] = [] := rfl

@[simp]
theorem verdicts_append (l l' : List Exchange) : verdicts (l ++ l') = verdicts l ++ verdicts l' :=
  List.filterMap_append

/-- The number of requests in a dialogue. -/
def requests (l : List Exchange) : Nat :=
  l.countP Exchange.isRequest

@[simp]
theorem requests_nil : requests [] = 0 := rfl

@[simp]
theorem requests_append (l l' : List Exchange) :
    requests (l ++ l') = requests l + requests l' :=
  List.countP_append

theorem requests_cons (e : Exchange) (l : List Exchange) :
    requests (e :: l) = e.isRequest.toNat + requests l := by
  unfold requests
  rw [List.countP_cons, Nat.add_comm]
  cases e.isRequest <;> rfl

/-- Somewhere in a dialogue no operation is enabled, and none is named. -/
def RunsDry (l : List Exchange) : Prop :=
  ∃ (choices : List Snapshot) (current : OperationId),
    .operation choices current (.ok none) ∈ l ∧ ∀ op ∈ choices, op.enabled = false

/-! ## Following a dialogue -/

section Follows

variable {σ : Type} [Strategy σ]

/-- A strategy in the first state holds its side of the dialogue and ends in the second state. -/
def Follows (s : σ) : List Exchange → σ → Prop
  | [], s' => s' = s
  | e :: l, s' => ∃ middle, e.Moves s middle ∧ Follows middle l s'

@[simp]
theorem follows_nil {s s' : σ} : Follows s [] s' ↔ s' = s := Iff.rfl

theorem follows_cons {s s' : σ} {e : Exchange} {l : List Exchange} :
    Follows s (e :: l) s' ↔ ∃ middle, e.Moves s middle ∧ Follows middle l s' := Iff.rfl

theorem follows_append {s s' : σ} {l l' : List Exchange} :
    Follows s (l ++ l') s' ↔ ∃ middle, Follows s l middle ∧ Follows middle l' s' := by
  induction l generalizing s with
  | nil => simp
  | cons e l ih =>
      simp only [List.cons_append, follows_cons, ih]
      constructor
      · rintro ⟨first, he, middle, hl, hl'⟩
        exact ⟨middle, ⟨first, he, hl⟩, hl'⟩
      · rintro ⟨middle, ⟨first, he, hl⟩, hl'⟩
        exact ⟨first, he, middle, hl, hl'⟩

end Follows

/-! ## Reachable states -/

/-- The states that a strategy can reach within a run, whatever it is asked and told. -/
inductive Strategy.Reaches {σ : Type} [Strategy σ] (s : σ) : σ → Prop where
  | refl : Reaches s s
  | step {s' s'' : σ} {e : Exchange} : Reaches s s' → e.Moves s' s'' → Reaches s s''

theorem Strategy.Reaches.trans {σ : Type} [Strategy σ] {s s' s'' : σ}
    (h : Strategy.Reaches s s') (h' : Strategy.Reaches s' s'') : Strategy.Reaches s s'' := by
  induction h' with
  | refl => exact h
  | step _ hmoves ih => exact ih.step hmoves

theorem Strategy.Reaches.follows {σ : Type} [Strategy σ] {s s' s'' : σ} {l : List Exchange}
    (h : Strategy.Reaches s s') (hl : Follows s' l s'') : Strategy.Reaches s s'' := by
  induction l generalizing s' with
  | nil => exact hl ▸ h
  | cons e l ih =>
      obtain ⟨middle, he, hrest⟩ := hl
      exact ih (h.step he) hrest

/-- Every exchange of a dialogue is made in a state that can be reached. -/
theorem mem_of_follows {σ : Type} [Strategy σ] {s s' : σ} {l : List Exchange}
    (h : Follows s l s') {e : Exchange} (he : e ∈ l) :
    ∃ r r', Strategy.Reaches s r ∧ e.Moves r r' := by
  obtain ⟨l₁, l₂, rfl⟩ := List.append_of_mem he
  obtain ⟨r, hbefore, r', hmoves, -⟩ := follows_append.mp h
  exact ⟨r, r', Strategy.Reaches.refl.follows hbefore, hmoves⟩

/-- The first answer of a strategy names an enabled operation if there is one, and leaves the
fairness of the strategy as it is. -/
def Strategy.Obliging {σ : Type} [Strategy σ] (s : σ) : Prop :=
  ∀ (choices : List Snapshot) (current : OperationId),
    let (answer, s') := Strategy.nextOperation s choices current
    (Exchange.operation choices current answer).Legal ∧
      (Exchange.operation choices current answer).Decided ∧
      Strategy.isFair s' = Strategy.isFair s

theorem Exchange.answer_eq_none {choices : List Snapshot} {current : OperationId}
    {answer : Answer OperationId} (h : (Exchange.operation choices current answer).Legal)
    (hdisabled : ∀ op ∈ choices, op.enabled = false) : answer = .ok none := by
  obtain ⟨id?, rfl, hid⟩ := h
  cases id? with
  | none => rfl
  | some id =>
      obtain ⟨op, hop, -, henabled⟩ := hid id rfl
      rw [hdisabled op hop] at henabled
      cases henabled

theorem Exchange.exists_answer {choices : List Snapshot} {current : OperationId}
    {answer : Answer OperationId} (h : (Exchange.operation choices current answer).Legal)
    (hdecided : (Exchange.operation choices current answer).Decided)
    (henabled : ∃ op ∈ choices, op.enabled = true) :
    ∃ id, answer = .ok (some id) ∧ ∃ op ∈ choices, op.id = id ∧ op.enabled = true := by
  obtain ⟨id?, rfl, hid⟩ := h
  cases id? with
  | none =>
      obtain ⟨op, hop, henabled⟩ := henabled
      rw [hdecided op hop] at henabled
      cases henabled
  | some id => exact ⟨id, rfl, hid id rfl⟩

/-! ## Listening in -/

/-- A strategy together with what it has heard. -/
structure Transcript (σ : Type) where
  inner : σ
  heard : List Exchange

namespace Transcript

variable {σ : Type}

/-- A strategy that has not heard anything. -/
def ofStrategy (inner : σ) : Transcript σ :=
  ⟨inner, []⟩

/-- The state after an exchange that left the inner strategy as given. -/
def hear (s : Transcript σ) (inner : σ) (e : Exchange) : Transcript σ :=
  ⟨inner, s.heard ++ [e]⟩

/-- The state after an exchange that is not taken down. -/
def withInner (s : Transcript σ) (inner : σ) : Transcript σ :=
  { s with inner }

end Transcript

instance {σ : Type} [Strategy σ] : Strategy (Transcript σ) where
  nextOperation s choices current :=
    let (answer, inner) := Strategy.nextOperation s.inner choices current
    (answer, s.hear inner (.operation choices current answer))
  nextBoolean s max :=
    let (answer, inner) := Strategy.nextBoolean s.inner max
    (answer, s.hear inner (.boolean max answer))
  nextInteger s max :=
    let (answer, inner) := Strategy.nextInteger s.inner max
    (answer, s.hear inner (.integer max answer))
  forceOperation s id choices current :=
    let (answer, inner) := Strategy.forceOperation s.inner id choices current
    (answer, s.withInner inner)
  forceBoolean s max b :=
    let (answer, inner) := Strategy.forceBoolean s.inner max b
    (answer, s.withInner inner)
  forceInteger s max n :=
    let (answer, inner) := Strategy.forceInteger s.inner max n
    (answer, s.withInner inner)
  prepare s :=
    let (more, inner) := Strategy.prepare s.inner
    (more, .ofStrategy inner)
  reset s := .ofStrategy (Strategy.reset s.inner)
  steps s := Strategy.steps s.inner
  boundReached s := Strategy.boundReached s.inner
  isFair s := Strategy.isFair s.inner
  describe s := Strategy.describe s.inner
  observe s n := s.hear (Strategy.observe s.inner n) (.notice n)
  onSend s sender target event :=
    let (delivery, inner) := Strategy.onSend s.inner sender target event
    (delivery, s.hear inner (.send sender target event delivery))
  onEnd s outcome :=
    let (result, inner) := Strategy.onEnd s.inner outcome
    (result, s.withInner inner)

/-- Listening in changes no answer: the same dialogue is followed, and all of it is heard. -/
theorem follows_transcript {σ : Type} [Strategy σ] {s s' : σ} {l : List Exchange}
    (h : Follows s l s') (heard : List Exchange) :
    Follows (⟨s, heard⟩ : Transcript σ) l ⟨s', heard ++ l.filter Exchange.isHeard⟩ := by
  induction l generalizing s heard with
  | nil =>
      cases h
      simp
  | cons e l ih =>
      obtain ⟨middle, he, hl⟩ := h
      -- the exchange is heard and appended, or it is one that is not taken down
      have hstep : e.Moves (⟨s, heard⟩ : Transcript σ)
          ⟨middle, heard ++ [e].filter Exchange.isHeard⟩ := by
        cases e with
        | bound reached => exact ⟨he.1, by simp [he.2, Exchange.isHeard]⟩
        | fairness fair => exact ⟨he.1, by simp [he.2, Exchange.isHeard]⟩
        | operation choices current answer =>
            have he : Strategy.nextOperation s choices current = (answer, middle) := he
            simp [Exchange.Moves, Strategy.nextOperation, he, Transcript.hear, Exchange.isHeard,
              List.filter_cons]
        | boolean max answer =>
            have he : Strategy.nextBoolean s max = (answer, middle) := he
            simp [Exchange.Moves, Strategy.nextBoolean, he, Transcript.hear, Exchange.isHeard,
              List.filter_cons]
        | integer max answer =>
            have he : Strategy.nextInteger s max = (answer, middle) := he
            simp [Exchange.Moves, Strategy.nextInteger, he, Transcript.hear, Exchange.isHeard,
              List.filter_cons]
        | notice n =>
            have he : Strategy.observe s n = middle := he
            simp [Exchange.Moves, Strategy.observe, he, Transcript.hear, Exchange.isHeard,
              List.filter_cons]
        | send sender target event delivery =>
            have he : Strategy.onSend s sender target event = (delivery, middle) := he
            simp [Exchange.Moves, Strategy.onSend, he, Transcript.hear, Exchange.isHeard,
              List.filter_cons]
        | logged d => simpa [Exchange.Moves, Exchange.isHeard] using he
      refine ⟨_, hstep, ?_⟩
      have := ih hl (heard ++ [e].filter Exchange.isHeard)
      rwa [List.append_assoc, ← List.filter_append, List.singleton_append] at this

end Interleave
