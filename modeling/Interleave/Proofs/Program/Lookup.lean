import Interleave.Proofs.Program.Dialogue
import Interleave.Proofs.Scheduler.Passage
import Interleave.Proofs.Tables

/-!
# Looking up threads and inboxes

What a step of a machine changes is one thread or one inbox at a time, besides a slot of its
scheduler. The laws here say what is found under an operation afterwards.
-/

namespace Interleave

namespace Machine

variable {σ β : Type}

/-- The status of the thread of an operation. -/
def status? (m : Machine σ β) (x : OperationId) : Option (Status β) :=
  (m.threads.find? (·.token.operation = x)).map (·.status)

theorem exists_thread_of_status? {m : Machine σ β} {x : OperationId} {status : Status β}
    (h : m.status? x = some status) :
    ∃ thread ∈ m.threads, thread.token.operation = x ∧ thread.status = status := by
  obtain ⟨thread, hfind, hstatus⟩ := Option.map_eq_some_iff.mp h
  exact ⟨thread, List.mem_of_find?_eq_some hfind, by simpa using List.find?_some hfind, hstatus⟩

/-- Every thread holds a token of this scheduler, and no two belong to the same operation. -/
structure OwnThreads (m : Machine σ β) : Prop where
  own : ∀ thread ∈ m.threads, thread.token.scheduler = m.scheduler.id
  distinct : (m.threads.map (·.token.operation)).Nodup

theorem OwnThreads.congr {m m' : Machine σ β} (h : m.OwnThreads)
    (hthreads : m'.threads = m.threads) (hid : m'.scheduler.id = m.scheduler.id) :
    m'.OwnThreads :=
  ⟨by rw [hthreads, hid]; exact h.own, by rw [hthreads]; exact h.distinct⟩

theorem OwnThreads.token_eq {m : Machine σ β} (h : m.OwnThreads) {thread other : Thread β}
    (hthread : thread ∈ m.threads) (hother : other ∈ m.threads)
    (hop : other.token.operation = thread.token.operation) : other.token = thread.token := by
  have h₁ := h.own thread hthread
  have h₂ := h.own other hother
  cases ht : thread.token
  cases ho : other.token
  simp_all

theorem OwnThreads.status?_eq {m : Machine σ β} (h : m.OwnThreads) {thread : Thread β}
    (hthread : thread ∈ m.threads) :
    m.status? thread.token.operation = some thread.status := by
  have hdistinct := h.distinct
  unfold status?
  generalize m.threads = threads at hthread hdistinct
  induction threads with
  | nil => cases hthread
  | cons other rest ih =>
      rw [List.map_cons, List.nodup_cons] at hdistinct
      rcases List.mem_cons.mp hthread with rfl | hrest
      · simp
      · have hne : other.token.operation ≠ thread.token.operation := by
          intro heq
          exact hdistinct.1 (List.mem_map.mpr ⟨thread, hrest, heq.symm⟩)
        rw [List.find?_cons_of_neg (by simpa using hne)]
        exact ih hrest hdistinct.2

theorem OwnThreads.setStatus {m : Machine σ β} (h : m.OwnThreads) (t : Token)
    (status : Status β) : (m.setStatus t status).OwnThreads where
  own thread hthread := by
    obtain ⟨old, hold, rfl⟩ := List.mem_map.mp hthread
    have := h.own old hold
    split <;> exact this
  distinct := by
    have hops : (m.setStatus t status).threads.map (·.token.operation) =
        m.threads.map (·.token.operation) := by
      simp only [Machine.setStatus, List.map_map]
      refine List.map_congr_left fun thread _ => ?_
      simp only [Function.comp_apply]
      split <;> rfl
    rw [hops]
    exact h.distinct

/-- The status of a thread that has just been set, and of all others. -/
theorem OwnThreads.status?_setStatus {m : Machine σ β} (h : m.OwnThreads) {thread : Thread β}
    (hthread : thread ∈ m.threads) (status : Status β) (x : OperationId) :
    (m.setStatus thread.token status).status? x =
      if x = thread.token.operation then some status else m.status? x := by
  unfold status? Machine.setStatus
  have hpred : ((fun other : Thread β => decide (other.token.operation = x)) ∘
      fun other => if other.token = thread.token then { other with status } else other) =
        fun other => decide (other.token.operation = x) := by
    funext other
    simp only [Function.comp_apply]
    split <;> rfl
  rw [List.find?_map, hpred]
  cases hfind : m.threads.find? (fun other => decide (other.token.operation = x)) with
  | none =>
      have hx : x ≠ thread.token.operation := by
        rintro rfl
        have := List.find?_eq_none.mp hfind thread hthread
        simp at this
      simp [hx]
  | some other =>
      have hop : other.token.operation = x := by simpa using List.find?_some hfind
      by_cases hx : x = thread.token.operation
      · have htoken := h.token_eq hthread (List.mem_of_find?_eq_some hfind) (hop.trans hx)
        simp [hx, htoken]
      · have htoken : other.token ≠ thread.token := by
          intro heq
          exact hx (by rw [← hop, heq])
        simp [hx, htoken]

theorem inbox_setInbox (m : Machine σ β) (id x : OperationId) (messages : List Message) :
    (m.setInbox id messages).inbox x = if x = id then messages else m.inbox x := by
  unfold inbox setInbox
  by_cases hx : x = id
  · simp [hx]
  · have hne : (x == id) = false := by simpa using hx
    have hkept : ∀ entry : OperationId × List Message, entry.1 = x →
        decide (entry.1 ≠ id) = true := by
      intro entry hentry
      simpa [hentry] using hx
    simp only [List.lookup_cons, hne, if_neg hx, lookup_filter hkept]

end Machine

end Interleave
