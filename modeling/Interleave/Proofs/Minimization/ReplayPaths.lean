import Interleave.Proofs.Minimization.Cutoff
import Interleave.Proofs.Strategy.ExactReplay
import Interleave.Proofs.Strategy.Walking

/-!
# Two ways to replay a schedule

A replay with a suffix hands over to it as soon as its schedule ends. A minimizing session replays
its schedule without a suffix and turns to its own only when the replay has nothing to answer; where
no operation is enabled it takes the end of the run from the replay instead. The two go `Abreast`
all the same if the suffix is a random walk, because a random walk that finds nothing enabled
declines without a draw. So they answer every row of requests alike and leave the walk in the same
state (`Minimization.Abreast.interview`).
-/

namespace Interleave

/-! ### Rows of requests -/

/-- A request for a decision. -/
inductive Request where
  | operation (choices : List Snapshot) (current : OperationId)
  | boolean (max : UInt32)
  | integer (max : UInt32)

section Interview

variable {σ : Type} [Strategy σ]

/-- The exchange that a request makes, and the state after it. -/
def Request.put (s : σ) : Request → Exchange × σ
  | operation choices current =>
    let (answer, s) := Strategy.nextOperation s choices current
    (.operation choices current answer, s)
  | boolean max =>
    let (answer, s) := Strategy.nextBoolean s max
    (.boolean max answer, s)
  | integer max =>
    let (answer, s) := Strategy.nextInteger s max
    (.integer max answer, s)

/-- The exchanges that requests in a row make, and the state after them. -/
def interview (s : σ) : List Request → List Exchange × σ
  | [] => ([], s)
  | request :: requests =>
    let (e, s) := request.put s
    let (l, s) := interview s requests
    (e :: l, s)

end Interview

variable {γ : Type}

/-- A random walk that finds no operation enabled declines and stays as it is. -/
theorem Walk.nextOperation_of_dry [Generator γ] {choices : List Snapshot}
    (h : (!choices.any (·.enabled)) = true) (current : OperationId) (walk : Walk γ) :
    Strategy.nextOperation walk choices current = (.ok none, walk) := by
  rw [Bool.not_eq_eq_eq_not, Bool.not_true] at h
  have hempty : enabledIds choices = [] := by
    rw [List.eq_nil_iff_forall_not_mem]
    intro id hid
    obtain ⟨op, hop, -, henabled⟩ := mem_enabledIds.mp hid
    exact List.any_eq_false.mp h op hop henabled
  simp [Strategy.nextOperation, pick, hempty]

namespace Replay

variable {τ α : Type} {schedule : Schedule} {position : Nat} {endExpected : Bool}
  {read : Decision → Except Mismatch (Option α)} {fromSuffix : τ → Answer α × τ}

/-- A request in front of a decision is answered from it, with or without a suffix. -/
theorem answer_of_lt (fair : Bool) (suffix : Option τ) (h : position < schedule.size) :
    (⟨schedule, position, fair, suffix, false⟩ : Replay τ).answer endExpected read (.ok none)
        fromSuffix =
      ((read schedule[position]).mapError (.mismatch position),
        ⟨schedule, position + 1, fair, suffix, false⟩) := by
  simp only [answer, next, h, Bool.not_false, and_self, dif_pos]
  rfl

/-- Behind the last decision the suffix answers. -/
theorem answer_of_handedOver (fair handed : Bool) (w : τ)
    (h : handed = true ∨ schedule.size ≤ position) :
    (⟨schedule, position, fair, some w, handed⟩ : Replay τ).answer endExpected read (.ok none)
        fromSuffix =
      ((fromSuffix w).1, ⟨schedule, position, fair, some (fromSuffix w).2, true⟩) := by
  have hbehind : ¬((!handed) = true ∧ position < schedule.size) := by
    rintro ⟨hlive, hlt⟩
    rcases h with rfl | hle
    · cases hlive
    · exact absurd hlt (Nat.not_lt.mpr hle)
  simp only [answer, next, dif_neg hbehind]
  rfl

/-- Without a suffix a request behind the last decision is declined if the end of the run is
expected, and fails otherwise. -/
theorem answer_before_of_le (h : schedule.size ≤ position) :
    (before schedule false position : Replay τ).answer endExpected read (.ok none) fromSuffix =
      (if endExpected then .ok none else .error (.exhausted schedule.size),
        before schedule false position) := by
  have hnext : (before schedule false position : Replay τ).next endExpected =
      (if endExpected then .ended else .exhausted, before schedule false position) := by
    simp [next, before, Nat.not_lt.mpr h]
  rw [answer, hnext]
  cases endExpected <;> rfl

end Replay

namespace Minimization

/-! ### Going abreast -/

/-- A replay and a session are at the same point of the schedule, or both are behind its end, and
their suffixes are the same. -/
inductive Abreast (schedule : Schedule) (fair : Bool) (walk : Walk γ) :
    Replay (Walk γ) → Session (Walk γ) → Prop
  /-- The schedule has been replayed up to the same position. -/
  | within {position : Nat} {s : Session (Walk γ)} (mode : s.mode = .replay)
      (replay : s.replay = some (.before schedule false position)) (suffix : s.suffix = some walk) :
      Abreast schedule fair walk ⟨schedule, position, fair, some walk, false⟩ s
  /-- The replay has handed over, and the session has met the expected end of a run only. -/
  | behind {position last : Nat} {s : Session (Walk γ)} (mode : s.mode = .replay)
      (replay : s.replay = some (.before schedule false last)) (ended : schedule.size ≤ last)
      (suffix : s.suffix = some walk) :
      Abreast schedule fair walk ⟨schedule, position, fair, some walk, true⟩ s
  /-- Both leave all decisions to the walk. -/
  | free {position : Nat} {s : Session (Walk γ)} (mode : s.mode = .free)
      (suffix : s.suffix = some walk) :
      Abreast schedule fair walk ⟨schedule, position, fair, some walk, true⟩ s

variable {schedule : Schedule} {fair : Bool} {walk : Walk γ} {r : Replay (Walk γ)}
  {s : Session (Walk γ)}

theorem Abreast.suffix (h : Abreast schedule fair walk r s) : r.suffix = s.suffix := by
  cases h with
  | within _ _ suffix | behind _ _ _ suffix | free _ suffix => exact suffix.symm

theorem Abreast.countStep (h : Abreast schedule fair walk r s) :
    Abreast schedule fair walk r s.countStep := by
  cases h with
  | within mode replay suffix => exact .within mode replay suffix
  | behind mode replay ended suffix => exact .behind mode replay ended suffix
  | free mode suffix => exact .free mode suffix

variable {α : Type} {endExpected : Bool} {read : Decision → Except Mismatch (Option α)}
  {fromSuffix : Walk γ → Answer α × Walk γ} {otherwise : Option α}

theorem goFree_of_suffix (hsuffix : s.suffix = some walk) :
    s.goFree fromSuffix otherwise =
      ((fromSuffix walk).1, { s with mode := .free, suffix := some (fromSuffix walk).2 }) := by
  simp only [Session.goFree, Session.askSuffix, hsuffix]

/-- A session whose replay has come to its end answers from the walk, which it would do itself if
the end of the run is expected. -/
theorem askReplay_of_ended {last : Nat} (hmode : s.mode = .replay)
    (hreplay : s.replay = some (.before schedule false last)) (hended : schedule.size ≤ last)
    (hsuffix : s.suffix = some walk)
    (hdry : endExpected = true → fromSuffix walk = (.ok none, walk)) (fair : Bool) (position : Nat)
    (read : Decision → Except Mismatch (Option α)) (otherwise : Option α) :
    let asked := s.askReplay (·.answer endExpected read (.ok none) fromSuffix) fromSuffix otherwise
    asked.1 = (fromSuffix walk).1 ∧
      Abreast schedule fair (fromSuffix walk).2
        ⟨schedule, position, fair, some (fromSuffix walk).2, true⟩ asked.2 := by
  simp only [Session.askReplay, hreplay, Replay.answer_before_of_le hended]
  cases endExpected with
  | true =>
      -- the session keeps asking its replay; nothing is drawn on either side
      rw [hdry rfl]
      exact ⟨rfl, .behind hmode rfl hended hsuffix⟩
  | false =>
      let s' := { s with replay := some (.before schedule false last) }
      have hsuffix' : s'.suffix = some walk := hsuffix
      show (s'.goFree fromSuffix otherwise).1 = _ ∧
        Abreast _ _ _ _ (s'.goFree fromSuffix otherwise).2
      rw [goFree_of_suffix hsuffix']
      exact ⟨rfl, .free rfl rfl⟩

/-- One request: the answers are the same, and the two stay abreast. -/
theorem Abreast.asked (h : Abreast schedule fair walk r s) (endExpected : Bool)
    (read : Decision → Except Mismatch (Option α)) (fromSuffix : Walk γ → Answer α × Walk γ)
    (otherwise : Option α)
    (hdry : endExpected = true → ∀ walk, fromSuffix walk = (.ok none, walk))
    {asked : Answer α × Session (Walk γ)}
    (hreplay : s.mode = .replay → asked =
      s.askReplay (·.answer endExpected read (.ok none) fromSuffix) fromSuffix otherwise)
    (hfree : s.mode = .free → asked = s.goFree fromSuffix otherwise) :
    let replayed := r.answer endExpected read (.ok none) fromSuffix
    asked.1 = replayed.1 ∧ ∃ walk', Abreast schedule fair walk' replayed.2 asked.2 := by
  intro replayed
  cases h with
  | @within position s mode replay suffix =>
      rw [hreplay mode]
      by_cases hlt : position < schedule.size
      · have hinner : (Replay.before schedule false position : Replay (Walk γ)).answer endExpected
            read (.ok none) fromSuffix = _ := Replay.answer_of_lt false none hlt
        simp only [replayed, Replay.answer_of_lt fair (some walk) hlt, Session.askReplay, replay,
          hinner]
        cases read schedule[position] with
        | ok a => exact ⟨rfl, walk, .within mode rfl suffix⟩
        | error cause => exact ⟨rfl, walk, .within mode rfl suffix⟩
      · -- here the replay hands over, while the session asks its own replay in vain first
        have hle := Nat.not_lt.mp hlt
        simp only [replayed, Replay.answer_of_handedOver fair false walk (Or.inr hle)]
        obtain ⟨hanswer, hbehind⟩ := askReplay_of_ended mode replay hle suffix
          (fun hend => hdry hend walk) fair position read otherwise
        exact ⟨hanswer, _, hbehind⟩
  | @behind position last s mode replay ended suffix =>
      rw [hreplay mode]
      simp only [replayed, Replay.answer_of_handedOver fair true walk (Or.inl rfl)]
      obtain ⟨hanswer, hbehind⟩ := askReplay_of_ended mode replay ended suffix
        (fun hend => hdry hend walk) fair position read otherwise
      exact ⟨hanswer, _, hbehind⟩
  | @free position s mode suffix =>
      rw [hfree mode, goFree_of_suffix suffix]
      simp only [replayed, Replay.answer_of_handedOver fair true walk (Or.inl rfl)]
      exact ⟨trivial, _, .free rfl rfl⟩

variable [Generator γ]

section Replaying

variable (hmode : s.mode = .replay)
include hmode

theorem nextOperation_of_replay (choices : List Snapshot) (current : OperationId) :
    s.nextOperation choices current =
      s.countStep.askReplay (Strategy.nextOperation · choices current)
        (Strategy.nextOperation · choices current)
        ((choices.find? fun op : Snapshot => op.enabled).map Snapshot.id) := by
  simp only [Session.nextOperation, Session.countStep, hmode]

theorem nextBoolean_of_replay (max : UInt32) :
    s.nextBoolean max = s.countStep.askReplay (Strategy.nextBoolean · max)
      (Strategy.nextBoolean · max) (some false) := by
  simp only [Session.nextBoolean, Session.countStep, hmode]

theorem nextInteger_of_replay (max : UInt32) :
    s.nextInteger max = s.countStep.askReplay (Strategy.nextInteger · max)
      (Strategy.nextInteger · max) (some 0) := by
  simp only [Session.nextInteger, Session.countStep, hmode]

end Replaying

/-- A request is put to the two with the same answer, and they stay abreast. -/
theorem Abreast.put (h : Abreast schedule fair walk r s) (request : Request) :
    (request.put s).1 = (request.put r).1 ∧
      ∃ walk', Abreast schedule fair walk' (request.put r).2 (request.put s).2 := by
  cases request with
  | operation choices current =>
      obtain ⟨hanswer, hstays⟩ := h.countStep.asked (!choices.any (·.enabled))
        (Replay.readOperation choices) (Strategy.nextOperation · choices current) _
        (fun hdry walk => Walk.nextOperation_of_dry hdry current walk)
        (fun hmode : s.mode = .replay => nextOperation_of_replay hmode choices current)
        (fun hmode : s.mode = .free => Session.nextOperation_of_free hmode choices current)
      exact ⟨congrArg (Exchange.operation choices current) hanswer, hstays⟩
  | boolean max =>
      obtain ⟨hanswer, hstays⟩ := h.countStep.asked false Replay.readBoolean
        (Strategy.nextBoolean · max) _ (fun hdry => nomatch hdry)
        (fun hmode : s.mode = .replay => nextBoolean_of_replay hmode max)
        (fun hmode : s.mode = .free => Session.nextBoolean_of_free hmode max)
      exact ⟨congrArg (Exchange.boolean max) hanswer, hstays⟩
  | integer max =>
      obtain ⟨hanswer, hstays⟩ := h.countStep.asked false Replay.readInteger
        (Strategy.nextInteger · max) _ (fun hdry => nomatch hdry)
        (fun hmode : s.mode = .replay => nextInteger_of_replay hmode max)
        (fun hmode : s.mode = .free => Session.nextInteger_of_free hmode max)
      exact ⟨congrArg (Exchange.integer max) hanswer, hstays⟩

theorem Abreast.interview (h : Abreast schedule fair walk r s) (requests : List Request) :
    (interview s requests).1 = (interview r requests).1 ∧
      ∃ walk', Abreast schedule fair walk' (interview r requests).2 (interview s requests).2 := by
  induction requests generalizing walk r s with
  | nil => exact ⟨rfl, walk, h⟩
  | cons request requests ih =>
      obtain ⟨hanswer, walk', hstays⟩ := h.put request
      obtain ⟨hrest, hlast⟩ := ih hstays
      exact ⟨congrArg₂ List.cons hanswer hrest, hlast⟩

/-- The replay of a schedule with a random walk behind it and the first run of a minimization of
that schedule with the same walk answer all requests alike, also behind an error: with the same
operations and values, with none at the same places and with the same mismatches. They leave the
walk in the same state, so they have asked it for the same draws. -/
theorem replay_paths_agree (schedule : Schedule) (fair : Bool) (walk : Walk γ) (header : Header)
    (config : Configuration) (settings : Settings) (policy : MatchPolicy)
    (requests : List Request) :
    let replayed := interview (Replay.ofSchedule schedule fair (some walk)) requests
    let minimized :=
      interview (Session.ofSchedule schedule header config settings policy (some walk)) requests
    minimized.1 = replayed.1 ∧ minimized.2.suffix = replayed.2.suffix := by
  have hstart : Abreast schedule fair walk (Replay.ofSchedule schedule fair (some walk))
      (Session.ofSchedule schedule header config settings policy (some walk)) :=
    .within rfl rfl rfl
  obtain ⟨hanswers, walk', hlast⟩ := hstart.interview requests
  exact ⟨hanswers, hlast.suffix.symm⟩

end Minimization

end Interleave
