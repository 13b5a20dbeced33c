import AndInverter.Aig.Isomorphism
import AndInverter.Proofs.Aig.Evaluation

/-!
# Isomorphic cones compute the same functions

A renaming takes each evaluation below the outputs to one of the other graph.
Values are unique, so nothing else evaluates there.
-/

namespace AndInverter

namespace Aig

theorem belowOutputs_of_output {aig : Aig} {output : Edge} (listed : output ∈ aig.outputs) :
    aig.BelowOutputs output.node :=
  ⟨output.node, List.mem_map_of_mem (Array.mem_toList_iff.mpr listed), .refl⟩

theorem BelowOutputs.reads {aig : Aig} {gate id : Nat} (below : aig.BelowOutputs gate)
    (reads : aig.GateReads gate id) : aig.BelowOutputs id := by
  obtain ⟨root, isRoot, reaches⟩ := below
  exact ⟨root, isRoot, reaches.tail (reads_iff.mpr reads)⟩

theorem BelowOutputs.live {aig : Aig} (references : aig.References) {id : Nat}
    (below : aig.BelowOutputs id) : aig.isDead id = false := by
  obtain ⟨root, isRoot, reaches⟩ := below
  induction reaches with
  | refl =>
      obtain ⟨output, listed, rfl⟩ := List.mem_map.mp isRoot
      exact references.outputs_live output (Array.mem_toList_iff.mp listed)
  | tail _ reads _ => exact references.fanins_live _ _ (reads_iff.mp reads)

theorem Evaluates.ordered {aig : Aig} {assignment : Nat → Bool} {id : Nat} {left right : Edge}
    {first second : Bool} (stored : aig.gateFanins? id = some (.ordered left right))
    (leftValue : aig.Evaluates assignment left.node first)
    (rightValue : aig.Evaluates assignment right.node second) :
    aig.Evaluates assignment id ((first ^^ left.complement) && (second ^^ right.complement)) := by
  unfold Fanins.ordered at stored
  split at stored
  · rw [Bool.and_comm]
    exact .gate stored rightValue leftValue
  · exact .gate stored leftValue rightValue

namespace ConeIsomorphism

variable {source target : Aig} {image : Nat → Nat}

theorem evaluates (isomorphism : ConeIsomorphism source target image) (placed : source.Placed)
    (ports : target.Ports) {assignment : Nat → Bool} {id : Nat} {value : Bool}
    (evaluates : source.Evaluates assignment id value) (below : source.BelowOutputs id) :
    target.Evaluates assignment (image id) value := by
  induction evaluates with
  | @constant id stored =>
      have zero : 0 = id := placed.position id .constant stored
      rw [← zero, isomorphism.constant]
      exact .constant ports.constant
  | @input id name index _ registered =>
      have renamed : target.inputs[index]? = some (image id) := by
        rw [isomorphism.inputs, Array.getElem?_map, registered]
        rfl
      have stored := ports.inputs (image id) (Array.mem_iff_getElem?.mpr ⟨index, renamed⟩)
      exact .input stored renamed
  | @gate id fanins first second stored _ _ leftInduction rightInduction =>
      have left := leftInduction (below.reads ⟨fanins, stored, .inl rfl⟩)
      have right := rightInduction (below.reads ⟨fanins, stored, .inr rfl⟩)
      have renamed := isomorphism.gate id fanins below stored
      have conjoined := Evaluates.ordered renamed left right
      exact conjoined

theorem sameFunctions (isomorphism : ConeIsomorphism source target image)
    (references : source.References) (ports : source.Ports) (acyclic : source.Acyclic)
    (targetPorts : target.Ports) : source.SameFunctions target := by
  refine { inputs := by simp [isomorphism.inputs], outputs := by simp [isomorphism.outputs]
           values := ?_ }
  intro assignment index output output' found found' value
  rw [isomorphism.outputs, Array.getElem?_map, found] at found'
  cases found'
  have listed : output ∈ source.outputs := Array.mem_iff_getElem?.mpr ⟨index, found⟩
  have below := belowOutputs_of_output listed
  have moved : ∀ value, source.Evaluates assignment output.node value →
      target.Evaluates assignment (image output.node) value :=
    fun _ here => isomorphism.evaluates ports.toPlaced targetPorts here below
  constructor
  · exact moved _
  · -- The source has a value there, and its image is the only value of the
    -- target.
    intro there
    obtain ⟨here, evaluates⟩ := exists_evaluates references ports acyclic assignment
      (references.outputs_live output listed)
    have same : here = (value ^^ output.complement) :=
      (moved here evaluates).unique targetPorts there
    rwa [same] at evaluates

end ConeIsomorphism

end Aig

end AndInverter
