import Interleave.Proofs.Scheduler.Calling

/-!
# What calls do

Every call does one of a few things to a scheduler (`Scheduler.effect_after`): it passes a notice
on, it leaves all alike but the slots and the strategy, it stops the run in such a state, with a bug
or without one, it reports an assertion, or it takes an answer of the strategy to a request. What
calls keep is proved by these cases.
-/

namespace Interleave

namespace Scheduler

/-- Whether the call passes a notice on. -/
def Call.isNotice : Call → Bool
  | .notify _ => true
  | _ => false

variable {σ : Type}

/-- The two differ in their slots, in the control of them and in the strategy only. -/
structure Alike (s s' : Scheduler σ) : Prop where
  config : s'.config = s.config
  running : s'.running = s.running
  completed : s'.completed = s.completed
  bug : s'.bug = s.bug
  fullyExplored : s'.fullyExplored = s.fullyExplored
  error : s'.error = s.error
  hotMonitors : s'.hotMonitors = s.hotMonitors
  schedule : s'.schedule = s.schedule

theorem Alike.refl (s : Scheduler σ) : s.Alike s :=
  ⟨rfl, rfl, rfl, rfl, rfl, rfl, rfl, rfl⟩

theorem alike_create (s : Scheduler σ) (id : OperationId) (name : String) :
    s.Alike (s.create id name).2 := by
  rcases create_cases s id name with hknown | ⟨-, hfresh⟩
  · rw [hknown]
    exact .refl s
  · rw [hfresh]
    exact ⟨rfl, rfl, rfl, rfl, rfl, rfl, rfl, rfl⟩

theorem alike_handOver (s : Scheduler σ) (current next : OperationId) :
    s.Alike (s.handOver current next).2 := by
  rcases handOver_cases s current next with hstay | ⟨-, hpass⟩
  · rw [hstay]
    exact .refl s
  · rw [hpass]
    exact ⟨rfl, rfl, rfl, rfl, rfl, rfl, rfl, rfl⟩

variable [Strategy σ]

theorem alike_send (s : Scheduler σ) (sender target : OperationId) (event : Event) :
    s.Alike (s.send sender target event).2 := by
  cases hrun : s.running with
  | true =>
      rw [send_of_running hrun]
      exact ⟨rfl, rfl, rfl, rfl, rfl, rfl, rfl, rfl⟩
  | false =>
      rw [send_of_over hrun]
      exact .refl s

theorem alike_asked (s : Scheduler σ) (t : Token) (next : Declared) : s.Alike (s.asked t next).2 :=
  ⟨rfl, rfl, rfl, rfl, rfl, rfl, rfl, rfl⟩

/-- What a call does. Only notices and answers of the strategy are told from the rest. -/
inductive Effect (s : Scheduler σ) : Call → Scheduler σ → Prop
  /-- A notice is passed on. -/
  | notifies (n : Notice) : Effect s (.notify n) (s.notify n)
  /-- All stays alike. -/
  | keeps {c : Call} {s' : Scheduler σ} (silent : c.isNotice = false) (alike : s.Alike s') :
      Effect s c s'
  /-- The run is stopped without a bug. -/
  | stops {c : Call} {s₁ : Scheduler σ} (silent : c.isNotice = false) (alike : s.Alike s₁) :
      Effect s c s₁.stop
  /-- The run is stopped with a bug. -/
  | fails {c : Call} {s₁ : Scheduler σ} (silent : c.isNotice = false) (alike : s.Alike s₁)
      (kind : BugKind) (message : String) : Effect s c (s₁.fail kind message)
  /-- An assertion is reported. -/
  | reports (text : String) : Effect s (.reportAssertion text) (s.reportAssertion text)
  /-- An answer to the request for an operation is resolved. -/
  | resolves (t : Token) (kind : ActionKind) (targetKind : TargetKind) (target : OperationId) :
      Effect s (.yield t kind targetKind target)
        ((s.asked t ⟨kind, targetKind, target, none⟩).2.resolve t.operation
          (s.shown t ⟨kind, targetKind, target, none⟩)
          (s.asked t ⟨kind, targetKind, target, none⟩).1).2
  /-- An answer to the request for a Boolean is settled. -/
  | flips (t : Token) (max : UInt32) (fairness : Option String) :
      Effect s (.nextBoolean t max fairness)
        ({ s with strategy := (Strategy.nextBoolean s.strategy max).2 }.settle t .boolean
          (booleanDecision fairness) (Strategy.nextBoolean s.strategy max).1).2
  /-- An answer to the request for an integer is checked and settled. -/
  | rolls (t : Token) (max : UInt32) :
      Effect s (.nextInteger t max)
        ({ s with strategy := (Strategy.nextInteger s.strategy max).2 }.settle t .integer .integer
          (checkRange max (Strategy.nextInteger s.strategy max).1)).2

theorem effect_start (s : Scheduler σ) (t : Token) : s.Effect (.start t) (s.start t).2 := by
  rcases start_cases s t with ⟨slot, -, -, hstart⟩ | ⟨-, hfail⟩
  · rw [hstart]
    exact .keeps rfl ⟨rfl, rfl, rfl, rfl, rfl, rfl, rfl, rfl⟩
  · rw [hfail]
    exact .fails rfl (.refl s) _ _

/-- A refused call stops the run. -/
theorem effect_of_refused {s s' : Scheduler σ} {t : Token} {c : Call}
    (silent : c.isNotice = false) (h : s.refusal? t = some s') : s.Effect c s' := by
  cases refuses_of_refused h with
  | ended => exact .stops silent (.refl s)
  | misused => exact .fails silent (.refl s) _ _
  | bound =>
      have hmarked : s.Alike { s with boundReached := true } :=
        ⟨rfl, rfl, rfl, rfl, rfl, rfl, rfl, rfl⟩
      rcases cutOff_cases s with ⟨message, hcut⟩ | hcut
      · rw [hcut]
        exact .fails silent hmarked _ _
      · rw [hcut]
        exact .stops silent hmarked

theorem effect_yield (s : Scheduler σ) (t : Token) (kind : ActionKind) (targetKind : TargetKind)
    (target : OperationId) :
    s.Effect (.yield t kind targetKind target) (s.yield t kind targetKind target).2 := by
  cases href : s.refusal? t with
  | some s' =>
      rw [yield_of_refused href]
      exact effect_of_refused rfl href
  | none =>
      rw [yield_of_admitted href]
      exact .resolves t kind targetKind target

theorem effect_nextBoolean (s : Scheduler σ) (t : Token) (max : UInt32)
    (fairness : Option String) :
    s.Effect (.nextBoolean t max fairness) (s.nextBoolean t max fairness).2 := by
  cases href : s.refusal? t with
  | some s' =>
      rw [nextBoolean, href]
      exact effect_of_refused rfl href
  | none =>
      rw [nextBoolean, href]
      exact .flips t max fairness

theorem effect_nextInteger (s : Scheduler σ) (t : Token) (max : UInt32) :
    s.Effect (.nextInteger t max) (s.nextInteger t max).2 := by
  cases href : s.refusal? t with
  | some s' =>
      rw [nextInteger, href]
      exact effect_of_refused rfl href
  | none =>
      rw [nextInteger, href]
      exact .rolls t max

theorem effect_after (s : Scheduler σ) (c : Call) : s.Effect c (s.after c) := by
  cases c with
  | create id name => exact .keeps rfl (alike_create s id name)
  | start t => exact effect_start s t
  | yield t kind targetKind target => exact effect_yield s t kind targetKind target
  | nextBoolean t max fairness => exact effect_nextBoolean s t max fairness
  | nextInteger t max => exact effect_nextInteger s t max
  | notify n => exact .notifies n
  | send sender target event => exact .keeps rfl (alike_send s sender target event)
  | blockOnReceive _ | unblock _ | complete _ =>
      exact .keeps rfl ⟨rfl, rfl, rfl, rfl, rfl, rfl, rfl, rfl⟩
  | failAssertion text => exact .fails rfl (.refl s) .assertion text
  | reportAssertion text => exact .reports text
  | stop => exact .stops rfl (.refl s)

end Scheduler

end Interleave
