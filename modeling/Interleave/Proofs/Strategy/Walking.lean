import Interleave.Proofs.Strategy.Exchange
import Interleave.Strategy.RandomWalk

/-!
# Random walks are obliging

A draw below `n` is a number below `n`, whatever the generator (`Generator.below_lt`), so that a
random walk always finds the operation it has drawn and names an enabled one whenever there is one.
-/

namespace Interleave

theorem mem_enabledIds {choices : List Snapshot} {id : OperationId} :
    id ∈ enabledIds choices ↔ ∃ op ∈ choices, op.id = id ∧ op.enabled = true := by
  unfold enabledIds
  simp only [List.mem_map, List.mem_filter]
  constructor
  · rintro ⟨op, ⟨hop, henabled⟩, rfl⟩
    exact ⟨op, hop, rfl, henabled⟩
  · rintro ⟨op, hop, rfl, henabled⟩
    exact ⟨op, ⟨hop, henabled⟩, rfl⟩

/-- A random walk names an enabled operation if there is one. -/
theorem Walk.obliging {γ : Type} [Generator γ] (walk : Walk γ) : Strategy.Obliging walk := by
  intro choices current
  simp only [Strategy.nextOperation, pick]
  split
  · rename_i hempty
    refine ⟨⟨none, rfl, fun id hid => by cases hid⟩, fun op hop => ?_, rfl⟩
    cases henabled : op.enabled with
    | false => rfl
    | true =>
        have hmem := mem_enabledIds.mpr ⟨op, hop, rfl, henabled⟩
        rw [List.isEmpty_iff.mp hempty] at hmem
        cases hmem
  · rename_i hnonempty
    have hpos : 0 < (enabledIds choices).length :=
      List.length_pos_iff.mpr fun hnil => hnonempty (by rw [hnil]; rfl)
    have hlt := Generator.below_lt .full hpos walk.stream
    rcases hdraw : Generator.below .full (enabledIds choices).length walk.stream
      with ⟨index, stream⟩
    rw [hdraw] at hlt
    have hlt : index < (enabledIds choices).length := hlt
    have hget : (enabledIds choices)[index]? = some (enabledIds choices)[index] :=
      List.getElem?_eq_getElem hlt
    simp only [hget]
    refine ⟨⟨_, rfl, fun id hid => ?_⟩, trivial, rfl⟩
    rw [← Option.some.inj hid]
    exact mem_enabledIds.mp (List.getElem_mem hlt)

end Interleave
