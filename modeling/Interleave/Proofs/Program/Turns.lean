import Interleave.Proofs.Strategy.Exchange

/-!
# Turns

As long as a run goes on, the operations take turns. The operation that `holds` control asks for
values and, at a scheduling point, for the operation to run next; the operation that is `granted`
control performs the action it has declared, announces it, and then holds control. `Turn.Goes` says
which exchanges can be made in which turn, and `Turn.Path` what follows from that for a dialogue.
-/

namespace Interleave

/-- Whose turn it is. -/
inductive Turn where
  /-- The operation runs. -/
  | holds (op : OperationId)
  /-- The operation is to perform the action it has declared. -/
  | granted (op : OperationId) (next : Declared)
  /-- The operation has been given a value, which is still to be announced. -/
  | decided (op : OperationId) (choice : Choice)

namespace Turn

/-- Whether the operation of the turn has taken the step that the turn is about. -/
def isDone : Turn → Bool
  | .holds _ => true
  | _ => false

/-- An exchange of a run that goes on, with the turns before and after it. -/
inductive Goes : Turn → Exchange → Turn → Prop where
  | unbound {turn : Turn} : Goes turn (.bound false) turn
  | fairness {turn : Turn} {fair : Bool} : Goes turn (.fairness fair) turn
  | logged {turn : Turn} {d : Decision} : Goes turn (.logged d) turn
  | grants {current : OperationId} {choices : List Snapshot} {op : Snapshot}
      (distinct : (choices.map Snapshot.id).Nodup) (mem : op ∈ choices) (enabled : op.enabled) :
      Goes (.holds current) (.operation choices current (.ok (some op.id))) (.granted op.id op.next)
  | flips {op : OperationId} {max : UInt32} {b : Bool} :
      Goes (.holds op) (.boolean max (.ok (some b))) (.decided op (.boolean b))
  | rolls {op : OperationId} {max n : UInt32} (range : isInRange n max) :
      Goes (.holds op) (.integer max (.ok (some n))) (.decided op (.integer n))
  | chosen {op : OperationId} {choice : Choice} :
      Goes (.decided op choice) (.notice (.chosen op choice)) (.holds op)
  | monitored {op : OperationId} {name : String} {hot : Bool} :
      Goes (.holds op) (.notice (.monitored name op hot)) (.holds op)
  | created {op child : OperationId} :
      Goes (.granted op ⟨.create, .operation, child, none⟩) (.notice (.created op child))
        (.holds op)
  | started {op : OperationId} (child : op ≠ .harness) :
      Goes (.granted op (.start op)) (.notice (.started op none)) (.holds op)
  | received {op : OperationId} {event : Event} :
      Goes (.granted op ⟨.receive, .inbox, op, none⟩) (.notice (.received op event)) (.holds op)
  | sent {op target : OperationId} {event : Event} {delivery : Delivery} :
      Goes (.granted op ⟨.send, .inbox, target, none⟩) (.send op target event delivery)
        (.holds op)

/-- A dialogue of a run that goes on, with the turns before and after it. -/
inductive Path : Turn → List Exchange → Turn → Prop where
  | nil {turn : Turn} : Path turn [] turn
  | cons {first second last : Turn} {e : Exchange} {l : List Exchange}
      (goes : Goes first e second) (path : Path second l last) : Path first (e :: l) last

theorem Path.append {first second last : Turn} {l l' : List Exchange} (h : Path first l second)
    (h' : Path second l' last) : Path first (l ++ l') last := by
  induction h with
  | nil => exact h'
  | cons goes _ ih => exact .cons goes (ih h')

theorem Path.split {first last : Turn} {l l' : List Exchange} (h : Path first (l ++ l') last) :
    ∃ middle, Path first l middle ∧ Path middle l' last := by
  induction l generalizing first with
  | nil => exact ⟨first, .nil, h⟩
  | cons e l ih =>
      cases h with
      | cons goes path =>
          obtain ⟨middle, hl, hl'⟩ := ih path
          exact ⟨middle, .cons goes hl, hl'⟩

/-- Every exchange of a path is made in some turn. -/
theorem Path.exists_goes {first last : Turn} {l : List Exchange} (h : Path first l last)
    {e : Exchange} (he : e ∈ l) : ∃ turn turn', Goes turn e turn' := by
  induction h with
  | nil => cases he
  | cons goes _ ih =>
      rcases List.mem_cons.mp he with rfl | hrest
      · exact ⟨_, _, goes⟩
      · exact ih hrest

/-- A run that goes on is not cut off. -/
theorem Path.bound_notMem {first last : Turn} {l : List Exchange} (h : Path first l last) :
    .bound true ∉ l := by
  intro hmem
  obtain ⟨turn, turn', hgoes⟩ := h.exists_goes hmem
  cases hgoes

/-- As long as a run goes on the strategy always names an operation. -/
theorem Path.declined_notMem {first last : Turn} {l : List Exchange} (h : Path first l last)
    (choices : List Snapshot) (current : OperationId) :
    .operation choices current (.ok none) ∉ l := by
  intro hmem
  obtain ⟨turn, turn', hgoes⟩ := h.exists_goes hmem
  cases hgoes

theorem Goes.path {first second : Turn} {e : Exchange} (h : Goes first e second) :
    Path first [e] second :=
  .cons h .nil

end Turn

end Interleave
