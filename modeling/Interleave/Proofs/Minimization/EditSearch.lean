import Interleave.Proofs.Minimization.Verdicts
import Mathlib.Data.List.Induction

/-!
# The search for sends that can be withheld

The droppable sends have the numbers from 1 to `n`. While the edits go on, every number lies in
exactly one range: one that is settled, because its trial reproduced the bug or it is a single send
whose trial did not, the range of the current phase, or one that is still to be tried. `Settling` is
this invariant, with the ranges in increasing order (`Tiles`) and with what the trials say of each
other: two of them have disjoint ranges, or the later one lies inside the earlier one, which failed.
Splitting a range that failed, accepting one that did not and confirming one keep the invariant for
any answers; the best tree may change meanwhile.
-/

namespace Interleave.Minimization

/-! ## Ranges in a row -/

namespace Range

/-- The two ranges have no number in common. -/
def Apart (r s : Range) : Prop :=
  r.last < s.first ∨ s.last < r.first

/-- The first range is a proper part of the second one. -/
def Inside (r s : Range) : Prop :=
  s.first ≤ r.first ∧ r.last ≤ s.last ∧ r ≠ s

end Range

/-- The ranges follow each other without a gap, from `low` up to but without `high`. -/
def Tiles : Nat → List Range → Nat → Prop
  | low, [], high => low = high
  | low, r :: rs, high => r.first = low ∧ r.first ≤ r.last ∧ Tiles (r.last + 1) rs high

theorem tiles_append {low high : Nat} {rs ss : List Range} :
    Tiles low (rs ++ ss) high ↔ ∃ middle, Tiles low rs middle ∧ Tiles middle ss high := by
  induction rs generalizing low with
  | nil => simp [Tiles]
  | cons r rs ih =>
      simp only [List.cons_append, Tiles, ih]
      constructor
      · rintro ⟨hfirst, hle, middle, hrs, hss⟩
        exact ⟨middle, ⟨hfirst, hle, hrs⟩, hss⟩
      · rintro ⟨middle, ⟨hfirst, hle, hrs⟩, hss⟩
        exact ⟨hfirst, hle, middle, hrs, hss⟩

theorem Tiles.low_le_high {low high : Nat} {rs : List Range} (h : Tiles low rs high) :
    low ≤ high := by
  induction rs generalizing low with
  | nil => exact Nat.le_of_eq h
  | cons r rs ih =>
      obtain ⟨hfirst, hle, hrs⟩ := h
      have := ih hrs
      omega

theorem Tiles.bounds {low high : Nat} {rs : List Range} (h : Tiles low rs high) :
    ∀ r ∈ rs, low ≤ r.first ∧ r.first ≤ r.last ∧ r.last < high := by
  induction rs generalizing low with
  | nil => simp
  | cons r rs ih =>
      obtain ⟨hfirst, hle, hrs⟩ := h
      intro s hs
      obtain rfl | hs := List.mem_cons.mp hs
      · have := hrs.low_le_high
        omega
      · obtain ⟨hlow, hs'⟩ := ih hrs s hs
        exact ⟨by omega, hs'⟩

theorem Tiles.pairwise {low high : Nat} {rs : List Range} (h : Tiles low rs high) :
    rs.Pairwise fun r s => r.last < s.first := by
  induction rs generalizing low with
  | nil => exact List.Pairwise.nil
  | cons r rs ih =>
      obtain ⟨-, -, hrs⟩ := h
      exact List.pairwise_cons.mpr ⟨fun s hs => (hrs.bounds s hs).1, ih hrs⟩

theorem Tiles.covers {low high : Nat} {rs : List Range} (h : Tiles low rs high) (k : Nat) :
    (∃ r ∈ rs, r.contains k = true) ↔ low ≤ k ∧ k < high := by
  induction rs generalizing low with
  | nil =>
      have heq : low = high := h
      simp [heq]
  | cons r rs ih =>
      obtain ⟨hfirst, hle, hrs⟩ := h
      have hhigh := hrs.low_le_high
      simp only [List.mem_cons, exists_eq_or_imp]
      rw [ih hrs]
      simp only [Range.contains, Bool.and_eq_true, decide_eq_true_eq]
      omega

theorem Range.eq_of_ends {r s : Range} (hfirst : r.first = s.first) (hlast : r.last = s.last) :
    r = s := by
  cases r
  cases s
  simp_all

/-- Single sends that fill the same numbers are the same. -/
theorem Tiles.eq_of_singles {low high : Nat} {rs ss : List Range} (hrs : Tiles low rs high)
    (hss : Tiles low ss high) (hr : ∀ r ∈ rs, r.first = r.last)
    (hs : ∀ s ∈ ss, s.first = s.last) : rs = ss := by
  induction rs generalizing low ss with
  | nil =>
      cases ss with
      | nil => rfl
      | cons s ss =>
          have heq : low = high := hrs
          have := hss.bounds s (List.mem_cons_self ..)
          omega
  | cons r rs ih =>
      cases ss with
      | nil =>
          have heq : low = high := hss
          have := hrs.bounds r (List.mem_cons_self ..)
          omega
      | cons s ss =>
          obtain ⟨hrfirst, -, hrs⟩ := hrs
          obtain ⟨hsfirst, -, hss⟩ := hss
          have hrlast := hr r (List.mem_cons_self ..)
          have hslast := hs s (List.mem_cons_self ..)
          have heq : r = s := Range.eq_of_ends (by omega) (by omega)
          rw [← heq] at hss
          rw [← heq, ih hrs hss (fun x hx => hr x (List.mem_cons_of_mem r hx))
            (fun x hx => hs x (List.mem_cons_of_mem s hx))]

theorem Range.tiles_halves {r : Range} (h : r.first < r.last) :
    Tiles r.first r.halves (r.last + 1) := by
  simp only [Range.halves, h, if_true]
  refine ⟨rfl, ?_, rfl, ?_, rfl⟩ <;> dsimp only <;> omega

theorem Range.halves_eq_nil {r : Range} (h : ¬r.first < r.last) : r.halves = [] := by
  simp [Range.halves, h]

theorem Range.inside_of_mem_halves {r s : Range} (h : r ∈ s.halves) : r.Inside s := by
  unfold Range.halves at h
  split at h
  · rename_i hlt
    simp only [List.mem_cons, List.not_mem_nil, or_false] at h
    obtain rfl | rfl := h <;> refine ⟨by dsimp only; omega, by dsimp only; omega, ?_⟩ <;>
      · intro heq
        have hfirst := congrArg Range.first heq
        have hlast := congrArg Range.last heq
        dsimp only at hfirst hlast
        omega
  · simp at h

theorem tiles_singles (low count : Nat) :
    Tiles (low + 1) ((List.range' low count).map fun i => ⟨i + 1, i + 1⟩) (low + count + 1) := by
  induction count generalizing low with
  | zero => rfl
  | succ count ih =>
      rw [List.range'_succ, List.map_cons]
      refine ⟨rfl, Nat.le_refl _, ?_⟩
      have := ih (low + 1)
      rwa [Nat.add_right_comm low 1 count] at this

namespace Editor

theorem tiles_layOut (layout : Layout) (count : Nat) :
    Tiles 1 (layOut layout count) (count + 1) := by
  cases count with
  | zero => cases layout <;> rfl
  | succ count =>
      cases layout with
      | linear =>
          have := tiles_singles 0 (count + 1)
          rwa [Nat.zero_add, Nat.zero_add, ← List.range_eq_range'] at this
      | bisect => exact ⟨rfl, Nat.succ_le_succ (Nat.zero_le count), rfl⟩

/-! ## Settled and pending ranges -/

end Editor

/-- Whether a trial leaves nothing of its range to be tried: it reproduced the bug, or its range is
a single send. -/
def Trial.settles (t : Trial) : Bool :=
  t.reproduced || decide (t.range.first = t.range.last)

/-- What a trial says of a range that is tried after it: they are apart, or the trial failed and the
range is a proper part of its own. -/
def Trial.Precedes (t : Trial) (r : Range) : Prop :=
  r.Apart t.range ∨ (t.reproduced = false ∧ r.Inside t.range)

/-- A range that may be tried after the given trials: one of the layout or half of one that failed.
-/
def Justified (layout : List Range) (trials : List Trial) (r : Range) : Prop :=
  r ∈ layout ∨ ∃ t ∈ trials, t.reproduced = false ∧ r ∈ t.range.halves

/-- The state of the edits of `n` droppable sends after the given trials, with the given ranges
pending, the next one first. -/
structure Settling (layout : List Range) (n : Nat) (trials : List Trial) (pending : List Range) :
    Prop where
  tiles : Tiles 1 ((trials.filter Trial.settles).map (·.range) ++ pending) (n + 1)
  trials_within : ∀ t ∈ trials, 1 ≤ t.range.first ∧ t.range.first ≤ t.range.last ∧ t.range.last ≤ n
  trials_precede : trials.Pairwise fun t u => t.Precedes u.range
  pending_preceded : ∀ t ∈ trials, ∀ r ∈ pending, t.Precedes r
  pending_justified : ∀ r ∈ pending, Justified layout trials r
  trials_justified : ∀ before t rest, trials = before ++ t :: rest → Justified layout before t.range

theorem Justified.mono {layout : List Range} {trials : List Trial} {r : Range}
    (h : Justified layout trials r) (more : List Trial) : Justified layout (trials ++ more) r :=
  h.imp_right fun ⟨t, ht, hfailed⟩ => ⟨t, List.mem_append_left more ht, hfailed⟩

theorem Trial.Precedes.of_inside {t : Trial} {r s : Range} (h : t.Precedes r)
    (hs : s.Inside r) : t.Precedes s := by
  obtain ⟨hfirst, hlast, hsr⟩ := hs
  obtain hapart | ⟨hfailed, hrfirst, hrlast, hrt⟩ := h
  · refine .inl ?_
    unfold Range.Apart at hapart ⊢
    omega
  · refine .inr ⟨hfailed, by omega, by omega, ?_⟩
    -- a part of a part is the whole only if all three have the same ends
    intro hst
    have hfirst' : r.first = t.range.first := by rw [hst] at hfirst; omega
    have hlast' : r.last = t.range.last := by rw [hst] at hlast; omega
    exact hrt (Range.eq_of_ends hfirst' hlast')

section Settling

variable {layout : List Range} {n : Nat} {trials : List Trial} {range : Range}
  {pending : List Range}

theorem Settling.start (h : Tiles 1 layout (n + 1)) : Settling layout n [] layout where
  tiles := h
  trials_within := by simp
  trials_precede := List.Pairwise.nil
  pending_preceded := by simp
  pending_justified := fun r hr => .inl hr
  trials_justified := by simp

/-- A trial keeps its order to what comes after it: only the halves of its own range are new. -/
theorem Settling.precedes_after (h : Settling layout n trials (range :: pending))
    (reproduced : Bool) {t : Trial} (ht : t ∈ trials ++ [⟨range, reproduced⟩]) {r : Range}
    (hr : r ∈ pending) : t.Precedes r := by
  obtain ht | ht := List.mem_append.mp ht
  · exact h.pending_preceded t ht r (List.mem_cons_of_mem range hr)
  · obtain rfl : t = ⟨range, reproduced⟩ := List.mem_singleton.mp ht
    obtain ⟨middle, -, hpending⟩ := tiles_append.mp h.tiles
    have hlt := (List.pairwise_cons.mp hpending.pairwise).1 r hr
    exact .inl (.inr hlt)

theorem Settling.pending_within (h : Settling layout n trials pending) :
    ∀ r ∈ pending, 1 ≤ r.first ∧ r.first ≤ r.last ∧ r.last ≤ n := by
  intro r hr
  have := h.tiles.bounds r (List.mem_append_right _ hr)
  omega

theorem Settling.trials_within_concat (h : Settling layout n trials (range :: pending))
    (reproduced : Bool) : ∀ t ∈ trials ++ [Trial.mk range reproduced],
      1 ≤ t.range.first ∧ t.range.first ≤ t.range.last ∧ t.range.last ≤ n := by
  intro t ht
  obtain ht | ht := List.mem_append.mp ht
  · exact h.trials_within t ht
  · obtain rfl := List.mem_singleton.mp ht
    exact h.pending_within range (List.mem_cons_self ..)

theorem Settling.trials_precede_concat (h : Settling layout n trials (range :: pending))
    (reproduced : Bool) :
    (trials ++ [Trial.mk range reproduced]).Pairwise fun t u => t.Precedes u.range := by
  refine List.pairwise_append.mpr ⟨h.trials_precede, List.pairwise_singleton _ _, ?_⟩
  intro t ht u hu
  obtain rfl := List.mem_singleton.mp hu
  exact h.pending_preceded t ht range (List.mem_cons_self ..)

theorem Settling.trials_justified_concat (h : Settling layout n trials (range :: pending))
    (reproduced : Bool) (before : List Trial) (t : Trial) (rest : List Trial)
    (heq : trials ++ [⟨range, reproduced⟩] = before ++ t :: rest) :
    Justified layout before t.range := by
  -- the trial is the new one, or all up to it are old
  obtain ⟨more, hbefore, hrest⟩ | ⟨more, htrials, hlast⟩ := List.append_eq_append_iff.mp heq
  · cases more with
    | nil =>
        simp only [List.nil_append, List.cons.injEq] at hrest
        rw [hbefore, List.append_nil, ← hrest.1]
        exact h.pending_justified range (List.mem_cons_self ..)
    | cons u more => simp at hrest
  · cases more with
    | nil =>
        simp only [List.nil_append, List.cons.injEq] at hlast
        rw [List.append_nil] at htrials
        rw [hlast.1, ← htrials]
        exact h.pending_justified range (List.mem_cons_self ..)
    | cons u more =>
        simp only [List.cons_append, List.cons.injEq] at hlast
        rw [hlast.1]
        exact h.trials_justified before u more htrials

/-- A range whose trial settles it leaves the pending ranges. -/
theorem Settling.settle (h : Settling layout n trials (range :: pending)) {reproduced : Bool}
    (hsettles : Trial.settles ⟨range, reproduced⟩ = true) :
    Settling layout n (trials ++ [⟨range, reproduced⟩]) pending where
  tiles := by
    have := h.tiles
    simpa [List.filter_append, hsettles] using this
  trials_within := h.trials_within_concat reproduced
  trials_precede := h.trials_precede_concat reproduced
  pending_preceded := fun t ht r hr => h.precedes_after reproduced ht hr
  pending_justified := fun r hr =>
    (h.pending_justified r (List.mem_cons_of_mem range hr)).mono _
  trials_justified := h.trials_justified_concat reproduced

/-- A range of several sends whose trial failed is pending in its two halves. -/
theorem Settling.split (h : Settling layout n trials (range :: pending))
    (hlt : range.first < range.last) :
    Settling layout n (trials ++ [⟨range, false⟩]) (range.halves ++ pending) where
  tiles := by
    obtain ⟨middle, hsettled, hfirst, hle, hpending⟩ := tiles_append.mp h.tiles
    have hsettles : Trial.settles ⟨range, false⟩ = false := by
      simp [Trial.settles, Nat.ne_of_lt hlt]
    have hhalves := Range.tiles_halves hlt
    rw [hfirst] at hhalves
    -- a failed trial of several sends settles none of them
    have hsame : ((trials ++ [Trial.mk range false]).filter Trial.settles) =
        trials.filter Trial.settles := by
      simp [List.filter_append, hsettles]
    rw [hsame]
    exact tiles_append.mpr ⟨middle, hsettled, tiles_append.mpr ⟨_, hhalves, hpending⟩⟩
  trials_within := h.trials_within_concat false
  trials_precede := h.trials_precede_concat false
  pending_preceded := by
    intro t ht r hr
    obtain hr | hr := List.mem_append.mp hr
    · -- the halves of the range are to all trials as the range was, and inside it
      have hinside := Range.inside_of_mem_halves hr
      obtain ht | ht := List.mem_append.mp ht
      · exact (h.pending_preceded t ht range (List.mem_cons_self ..)).of_inside hinside
      · obtain rfl := List.mem_singleton.mp ht
        exact .inr ⟨rfl, hinside⟩
    · exact h.precedes_after false ht hr
  pending_justified := by
    intro r hr
    obtain hr | hr := List.mem_append.mp hr
    · exact .inr ⟨⟨range, false⟩, by simp, rfl, hr⟩
    · exact (h.pending_justified r (List.mem_cons_of_mem range hr)).mono _
  trials_justified := h.trials_justified_concat false

/-- What a failed trial leaves, whether or not its range can be split. -/
theorem Settling.failed (h : Settling layout n trials (range :: pending)) :
    Settling layout n (trials ++ [⟨range, false⟩]) (range.halves ++ pending) := by
  obtain hlt | hge := Nat.lt_or_ge range.first range.last
  · exact h.split hlt
  · obtain ⟨middle, -, hfirst, hle, -⟩ := tiles_append.mp h.tiles
    rw [Range.halves_eq_nil (Nat.not_lt.mpr hge)]
    exact h.settle (by simp [Trial.settles]; omega)

/-- No range is tried twice. -/
theorem Settling.nodup_trials (h : Settling layout n trials pending) :
    (trials.map (·.range)).Nodup := by
  -- a later trial is apart from the range or a proper part of it, but never the range itself
  refine List.pairwise_map.mpr (h.trials_precede.imp_of_mem ?_)
  intro t u ht _ hprecedes heq
  obtain hapart | ⟨-, -, -, hne⟩ := hprecedes
  · have := (h.trials_within t ht).2.1
    rw [← heq] at hapart
    unfold Range.Apart at hapart
    omega
  · exact hne heq.symm

/-- Where the layout has single sends only, they are tried one by one in order. -/
theorem Settling.trials_of_singles (h : Settling layout n trials pending)
    (hlayout : Tiles 1 layout (n + 1)) (hsingle : ∀ r ∈ layout, r.first = r.last) :
    trials.map (·.range) ++ pending = layout := by
  -- a single send has no halves, so that by induction whatever is tried is of the layout
  have hjustified : ∀ ts : List Trial, (∀ t ∈ ts, t.range.first = t.range.last) → ∀ r,
      Justified layout ts r → r.first = r.last := by
    rintro ts hts r (hr | ⟨t, ht, -, hr⟩)
    · exact hsingle r hr
    · rw [Range.halves_eq_nil (Nat.not_lt.mpr (Nat.le_of_eq (hts t ht).symm))] at hr
      exact absurd hr List.not_mem_nil
  -- the induction is over the first trials, as what justifies a trial has come before it
  have hprefix : ∀ ts rest, trials = ts ++ rest → ∀ t ∈ ts, t.range.first = t.range.last := by
    intro ts
    induction ts using List.reverseRecOn with
    | nil => simp
    | append_singleton ts u ih =>
        intro rest heq t ht
        rw [List.append_assoc, List.singleton_append] at heq
        obtain ht | ht := List.mem_append.mp ht
        · exact ih (u :: rest) heq t ht
        · obtain rfl := List.mem_singleton.mp ht
          exact hjustified ts (ih _ heq) _ (h.trials_justified ts t rest heq)
  have htrials := hprefix trials [] (List.append_nil trials).symm
  have hall : trials.filter Trial.settles = trials :=
    List.filter_eq_self.mpr fun t ht => by simp [Trial.settles, htrials t ht]
  -- two rows of single sends that fill the same numbers
  have htiles := h.tiles
  rw [hall] at htiles
  refine htiles.eq_of_singles hlayout (fun r hr => ?_) hsingle
  obtain hr | hr := List.mem_append.mp hr
  · obtain ⟨t, ht, rfl⟩ := List.mem_map.mp hr
    exact htrials t ht
  · exact hjustified trials htrials r (h.pending_justified r hr)

end Settling

/-! ## The edits of an editor -/

namespace Editor

/-- The ranges with nothing left to be tried: the accepted ones and the single sends that failed. -/
def settled (e : Editor) : List Range :=
  (e.trials.filter Trial.settles).map (·.range)

/-- The range of the current phase and those still to be tried, in this order. -/
def pending (e : Editor) : List Range :=
  match e.phase with
  | .edit range => range :: e.untried
  | _ => e.untried

/-- The phases behind the edits. -/
inductive BehindEdits : Phase → Prop where
  | treeReplay : BehindEdits (.treeReplay .search)
  | search (left right : Nat) : BehindEdits (.search left right)
  | completed (transition : Option Nat) : BehindEdits (.completed transition)

/-- An editor that has begun the edits of `n` droppable sends and may have finished them. -/
structure Edits (layout : Layout) (n : Nat) (e : Editor) : Prop where
  settling : Settling (layOut layout n) n e.trials e.pending
  phase : (∃ range, e.phase = .edit range) ∨ (BehindEdits e.phase ∧ e.untried = [])

theorem pending_nextCandidate (e : Editor) : e.nextCandidate.pending = e.untried := by
  rcases e.nextCandidate_cases with ⟨range, rest, h, heq⟩ | ⟨h, -, heq⟩ | ⟨h, -, heq⟩ <;>
    rw [heq, h] <;> rfl

theorem phase_nextCandidate (e : Editor) :
    (∃ range, e.nextCandidate.phase = .edit range) ∨
      (BehindEdits e.nextCandidate.phase ∧ e.nextCandidate.untried = []) := by
  rcases e.nextCandidate_cases with ⟨range, rest, -, heq⟩ | ⟨h, -, heq⟩ | ⟨h, -, heq⟩ <;> rw [heq]
  · exact Or.inl ⟨range, rfl⟩
  · exact Or.inr ⟨.treeReplay, h⟩
  · exact Or.inr ⟨.completed none, h⟩

/-- The editor goes on to the next candidate in any state of the edits. -/
theorem edits_nextCandidate {layout : Layout} {n : Nat} {e : Editor}
    (h : Settling (layOut layout n) n e.trials e.untried) : Edits layout n e.nextCandidate where
  settling := by rwa [e.sameResults_nextCandidate.trials, pending_nextCandidate]
  phase := phase_nextCandidate e

theorem Edits.frame {layout : Layout} {n : Nat} {e e' : Editor} (hsame : e.SameSearch e')
    (h : Edits layout n e) : Edits layout n e' := by
  obtain ⟨cursor, seen, rfl⟩ := hsame
  exact ⟨h.settling, h.phase⟩

/-- Behind the edits nothing is pending. -/
theorem pending_of_behindEdits {e : Editor} (h : BehindEdits e.phase) : e.pending = e.untried := by
  unfold pending
  generalize e.phase = phase at h
  cases h <;> rfl

/-- The editor is behind the edits once all ranges are settled. -/
theorem edits_of_behindEdits {layout : Layout} {n : Nat} {e : Editor}
    (h : Settling (layOut layout n) n e.trials []) (huntried : e.untried = [])
    (hphase : BehindEdits e.phase) : Edits layout n e where
  settling := by rwa [pending_of_behindEdits hphase, huntried]
  phase := .inr ⟨hphase, huntried⟩

theorem behindEdits_continueSearch (e : Editor) (left right : Nat) :
    BehindEdits (e.continueSearch left right).phase := by
  rcases e.continueSearch_cases left right with ⟨-, heq⟩ | ⟨-, heq⟩ <;> rw [heq]
  · exact .completed _
  · exact .search _ _

theorem Edits.settling_of_edit {layout : Layout} {n : Nat} {e : Editor} (h : Edits layout n e)
    {range : Range} (hphase : e.phase = .edit range) :
    Settling (layOut layout n) n e.trials (range :: e.untried) := by
  have hsettling := h.settling
  rwa [pending, hphase] at hsettling

theorem Edits.behind {layout : Layout} {n : Nat} {e : Editor} (h : Edits layout n e)
    (hne : ∀ range, e.phase ≠ .edit range) :
    Settling (layOut layout n) n e.trials [] ∧ BehindEdits e.phase ∧ e.untried = [] := by
  obtain ⟨range, hphase⟩ | ⟨hbehind, huntried⟩ := h.phase
  · exact absurd hphase (hne range)
  · have hsettling := h.settling
    rw [pending_of_behindEdits hbehind, huntried] at hsettling
    exact ⟨hsettling, hbehind, huntried⟩

theorem Edits.endRun {layout : Layout} {n : Nat} {e : Editor} (h : Edits layout n e)
    (bug : Option BugKind) (tree : EventTree) : Edits layout n (e.endRun bug tree).2 := by
  have hending := e.ending_endRun bug tree
  generalize (e.endRun bug tree).1 = result, (e.endRun bug tree).2 = e' at hending ⊢
  cases hending with
  | unstarted | scheduleRejected | treeRejected | repeated | finished =>
      exact ⟨h.settling, h.phase⟩
  | scheduleReplayed hphase =>
      obtain ⟨-, hbehind, -⟩ := h.behind (by simp [hphase])
      rw [hphase] at hbehind
      cases hbehind
  | treeReplayed next hphase =>
      obtain ⟨hsettling, hbehind, huntried⟩ := h.behind (by simp [hphase])
      rw [hphase] at hbehind
      cases hbehind
      exact edits_of_behindEdits hsettling huntried (behindEdits_continueSearch _ _ _)
  | confirmed range hphase => exact edits_nextCandidate ((h.settling_of_edit hphase).settle rfl)
  | refuted range hphase => exact edits_nextCandidate (h.settling_of_edit hphase).failed
  | lowered left right hphase | raised left right hphase =>
      obtain ⟨hsettling, -, huntried⟩ := h.behind (by simp [hphase])
      exact edits_of_behindEdits hsettling huntried (behindEdits_continueSearch _ _ _)

/-- The phases before the edits. -/
inductive BeforeEdits : Phase → Prop where
  | scheduleReplay : BeforeEdits .scheduleReplay
  | treeReplay : BeforeEdits (.treeReplay .edits)

theorem not_beforeEdits_nextCandidate (e : Editor) : ¬BeforeEdits e.nextCandidate.phase := by
  intro h
  obtain ⟨range, hphase⟩ | ⟨hbehind, -⟩ := phase_nextCandidate e
  · rw [hphase] at h
    cases h
  · generalize e.nextCandidate.phase = phase at h hbehind
    cases hbehind <;> cases h

theorem not_beforeEdits_continueSearch (e : Editor) (left right : Nat) :
    ¬BeforeEdits (e.continueSearch left right).phase := by
  have hbehind := behindEdits_continueSearch e left right
  generalize (e.continueSearch left right).phase = phase at hbehind
  intro h
  cases hbehind <;> cases h

/-- A run after which the edits have not begun yet leaves the trials as they were, and the edits
had not begun before it. -/
theorem beforeEdits_of_endRun {e : Editor} {bug : Option BugKind} {tree : EventTree}
    (h : BeforeEdits (e.endRun bug tree).2.phase) :
    BeforeEdits e.phase ∧ (e.endRun bug tree).2.trials = e.trials := by
  have hending := e.ending_endRun bug tree
  generalize (e.endRun bug tree).1 = result, (e.endRun bug tree).2 = e' at hending h ⊢
  cases hending with
  | unstarted | scheduleRejected | treeRejected | repeated | finished => exact ⟨h, rfl⟩
  | scheduleReplayed hphase => exact ⟨hphase ▸ .scheduleReplay, rfl⟩
  | treeReplayed next hphase =>
      cases next with
      | edits => exact absurd h (not_beforeEdits_nextCandidate _)
      | search => exact absurd h (not_beforeEdits_continueSearch _ _ _)
  | confirmed | refuted => exact absurd h (not_beforeEdits_nextCandidate _)
  | lowered | raised => exact absurd h (not_beforeEdits_continueSearch _ _ _)

/-- Before the edits begin there are no trials. -/
theorem trials_eq_nil_of_started {start : Editor} (hstart : Started start) (calls : List Call)
    (hphase : BeforeEdits (start.afterAll calls).phase) : (start.afterAll calls).trials = [] := by
  revert hphase
  refine afterAll_induction_endRun (P := fun e => BeforeEdits e.phase → e.trials = []) ?_ ?_ ?_
    calls
  · rintro e _ ⟨cursor, seen, rfl⟩ h
    exact h
  · intro e bug tree h hphase
    obtain ⟨hbefore, heq⟩ := beforeEdits_of_endRun hphase
    rw [heq]
    exact h hbefore
  · cases hstart <;> exact fun _ => rfl

theorem settings_endRun (e : Editor) (bug : Option BugKind) (tree : EventTree) :
    (e.endRun bug tree).2.settings = e.settings := by
  have hending := e.ending_endRun bug tree
  generalize (e.endRun bug tree).1 = result, (e.endRun bug tree).2 = e' at hending ⊢
  cases hending with
  | unstarted | scheduleRejected | scheduleReplayed | treeRejected | repeated | finished => rfl
  | treeReplayed next => exact (sameResults_enter _ next).settings
  | confirmed | refuted => exact (sameResults_nextCandidate _).settings
  | lowered | raised => rfl

theorem policy_endRun (e : Editor) (bug : Option BugKind) (tree : EventTree) :
    (e.endRun bug tree).2.policy = e.policy := by
  have hending := e.ending_endRun bug tree
  generalize (e.endRun bug tree).1 = result, (e.endRun bug tree).2 = e' at hending ⊢
  cases hending with
  | unstarted | scheduleRejected | scheduleReplayed | treeRejected | repeated | finished => rfl
  | treeReplayed next => exact (sameResults_enter _ next).policy
  | confirmed | refuted => exact (sameResults_nextCandidate _).policy
  | lowered | raised => rfl

theorem settings_afterAll (e : Editor) (calls : List Call) :
    (e.afterAll calls).settings = e.settings := by
  refine afterAll_induction_endRun (P := fun e' => e'.settings = e.settings) ?_ ?_ rfl calls
  · rintro e₁ _ ⟨cursor, seen, rfl⟩ h
    exact h
  · intro e₁ bug tree h
    rw [settings_endRun, h]

/-- The first candidates after the replay of the tree whose sends are to be edited. -/
theorem edits_endRun_treeReplay {e : Editor} {bug : Option BugKind} (tree : EventTree)
    (hphase : e.phase = .treeReplay .edits) (hrep : e.reproduces bug = true)
    (htrials : e.trials = []) :
    Edits e.settings.layout (countDroppable e.settings tree) (e.endRun bug tree).2 := by
  simp only [endRun, hphase, hrep, if_true, enter, beginEdits]
  refine edits_nextCandidate ?_
  simp only [accept, Option.map_some, Option.getD_some, htrials]
  exact Settling.start (tiles_layOut _ _)

theorem edits_afterAll {layout : Layout} {n : Nat} {e : Editor} (h : Edits layout n e)
    (calls : List Call) : Edits layout n (e.afterAll calls) :=
  afterAll_induction_endRun (fun _ _ hsame h => h.frame hsame)
    (fun _ bug tree h => h.endRun bug tree) h calls

/-- From the moment at which the edits of a tree with `n` droppable sends begin, whatever the runs
answer: the settled and the pending ranges follow each other in increasing order without overlap and
hold every number from 1 to `n` exactly once; a range is tried once, and only if it is of the layout
or half of a range that was tried before and failed; a range that lies inside another one is tried
after it, and the other one failed; single sends are tried in their order; and behind the edits
nothing is pending. -/
theorem edits_settle_every_number {start : Editor} (hstart : Started start) (before : List Call)
    {bug : Option BugKind} (tree : EventTree)
    (hphase : (start.afterAll before).phase = .treeReplay .edits)
    (hrep : (start.afterAll before).reproduces bug = true) (calls : List Call) :
    let n := countDroppable start.settings tree
    let e := start.afterAll (before ++ .endRun bug tree :: calls)
    let ranges := e.settled ++ e.pending
    let layout := layOut start.settings.layout n
    (∀ r ∈ ranges, 1 ≤ r.first ∧ r.first ≤ r.last ∧ r.last ≤ n) ∧
      ranges.Pairwise (fun r s => r.last < s.first) ∧
      (∀ k, (∃ r ∈ ranges, r.contains k = true) ↔ 1 ≤ k ∧ k ≤ n) ∧
      (e.trials.map (·.range)).Nodup ∧
      e.trials.Pairwise (fun t u => t.Precedes u.range) ∧
      (∀ t ∈ e.trials, ∀ r ∈ e.pending, t.Precedes r) ∧
      (∀ earlier t later, e.trials = earlier ++ t :: later → Justified layout earlier t.range) ∧
      (∀ r ∈ e.pending, Justified layout e.trials r) ∧
      (start.settings.layout = .linear →
        e.trials.map (·.range) ++ e.pending = (List.range n).map fun i => ⟨i + 1, i + 1⟩) ∧
      ((∀ range, e.phase ≠ .edit range) → e.pending = []) := by
  intro n e ranges layout
  -- the edits begin without trials, under the settings of the start, and go on from there
  have hsettings : (start.afterAll before).settings = start.settings :=
    settings_afterAll start before
  have htrials : (start.afterAll before).trials = [] :=
    trials_eq_nil_of_started hstart before (hphase ▸ .treeReplay)
  have hedits : Edits start.settings.layout n e := by
    have hbegin := edits_endRun_treeReplay tree hphase hrep htrials
    rw [hsettings] at hbegin
    have heq : e = ((start.afterAll before).endRun bug tree).2.afterAll calls :=
      afterAll_append start before (.endRun bug tree :: calls)
    rw [heq]
    exact edits_afterAll hbegin calls
  have hsettling := hedits.settling
  have htiles : Tiles 1 ranges (n + 1) := hsettling.tiles
  refine ⟨fun r hr => ?_, htiles.pairwise, fun k => ?_, hsettling.nodup_trials,
    hsettling.trials_precede, hsettling.pending_preceded, hsettling.trials_justified,
    hsettling.pending_justified, fun hlinear => ?_, fun hbehind => ?_⟩
  · have := htiles.bounds r hr
    omega
  · rw [htiles.covers k]
    omega
  · have hlayout : layOut start.settings.layout n = (List.range n).map fun i => ⟨i + 1, i + 1⟩ := by
      rw [hlinear]
      cases n <;> rfl
    rw [← hlayout]
    refine hsettling.trials_of_singles (tiles_layOut _ n) fun r hr => ?_
    rw [hlayout] at hr
    obtain ⟨i, -, rfl⟩ := List.mem_map.mp hr
    rfl
  · obtain ⟨range, hedit⟩ | ⟨-, huntried⟩ := hedits.phase
    · exact absurd hedit (hbehind range)
    · unfold pending
      split
      · rename_i range hedit
        exact absurd hedit (hbehind range)
      · exact huntried

/-- Two sends of which only the second can be withheld, laid out for bisection. -/
theorem edits_settle_every_number_of_two :
    let tick : Step :=
      { EventTree.rootStep with kind := .send, event := some { name := "Tick" } }
    let tree : EventTree := { EventTree.root with steps := #[EventTree.rootStep, tick, tick] }
    let start := (new { droppable := ["Tick"], layout := .bisect } .always).startFromTree tree
    let calls : List Call := [.endRun none tree, .endRun none tree, .endRun (some .assertion) tree]
    let e := start.afterAll ([] ++ .endRun (some .assertion) tree :: calls)
    Started start ∧ start.phase = .treeReplay .edits ∧ start.reproduces (some .assertion) = true ∧
      countDroppable start.settings tree = 2 ∧
      e.trials = [⟨⟨1, 2⟩, false⟩, ⟨⟨1, 1⟩, false⟩, ⟨⟨2, 2⟩, true⟩] ∧
      e.settled = [⟨1, 1⟩, ⟨2, 2⟩] ∧ (e.trials.map (·.range)).Nodup ∧ e.pending = [] := by
  intro tick tree start calls e
  have hstart : Started start := .tree _ _ _
  have hrep : (start.afterAll []).reproduces (some .assertion) = true := rfl
  obtain ⟨-, -, -, hnodup, -, -, -, -, -, hpending⟩ :=
    edits_settle_every_number hstart [] tree rfl hrep calls
  have hphase : e.phase = .treeReplay .search := by decide
  refine ⟨hstart, rfl, rfl, by decide, by decide, by decide, hnodup, hpending fun range => ?_⟩
  rw [hphase]
  exact Phase.noConfusion

end Editor

end Interleave.Minimization
