import AndInverter.Aig.Slots

/-!
# Reclaiming gates

A gate that neither a gate nor an output reads is dangling.  Reclaiming it
empties its slot and may leave its fanins dangling in turn.  Each step takes
a gate out of the store or a node off the stack, so the process ends.
-/

namespace AndInverter

namespace Aig

/-- The fanins of a gate that nothing reads. -/
def dangling? (aig : Aig) (id : Nat) : Option Fanins :=
  if aig.fanoutSize id = 0 then aig.gateFanins? id else none

/-- Empties the slot of a gate, which no longer reads its fanins. -/
def removeGate (aig : Aig) (id : Nat) (fanins : Fanins) : Aig :=
  let aig := (aig.unhash fanins id).setNode id none
  (aig.dropFanout fanins.first.node id).dropFanout fanins.second.node id

@[simp] theorem size_removeGate (aig : Aig) (id : Nat) (fanins : Fanins) :
    (aig.removeGate id fanins).size = aig.size := by
  simp [removeGate]

theorem isGate_removeGate (aig : Aig) (id other : Nat) (fanins : Fanins) :
    (aig.removeGate id fanins).isGate other =
      (aig.isGate other && decide (id ≠ other)) := by
  by_cases inside : other < aig.size
  · by_cases same : id = other <;>
      simp [isGate, gateFanins?, removeGate, inside, same]
  · have vacant : aig.node? other = none := by
      simp [node?, slot_of_size_le (Nat.le_of_not_lt inside), Slot.vacant]
    simp [isGate, gateFanins?, removeGate, inside, vacant]

theorem gates_removeGate (aig : Aig) (id : Nat) (fanins : Fanins) :
    (aig.removeGate id fanins).gates = aig.gates.filter fun other => decide (id ≠ other) := by
  simp only [gates, size_removeGate, List.filter_filter]
  refine List.filter_congr fun other _ => ?_
  rw [isGate_removeGate, Bool.and_comm]

theorem isGate_of_dangling? {aig : Aig} {id : Nat} {fanins : Fanins}
    (dangling : aig.dangling? id = some fanins) : aig.isGate id = true := by
  simp only [dangling?] at dangling
  split at dangling
  · simp [isGate, dangling]
  · simp at dangling

theorem length_gates_removeGate_lt {aig : Aig} {id : Nat} {fanins : Fanins}
    (dangling : aig.dangling? id = some fanins) :
    (aig.removeGate id fanins).gates.length < aig.gates.length := by
  rw [gates_removeGate]
  exact List.length_filter_lt_length_iff_exists.mpr
    ⟨id, mem_gates.mpr (isGate_of_dangling? dangling), by simp⟩

/-- Reclaims the dangling gates of a stack and, before the rest of the stack,
those that they leave dangling, second fanin first.  Returns the reclaimed
gates in order. -/
def reclaim (aig : Aig) : List Nat → Aig × List Nat
  | [] => (aig, [])
  | id :: stack =>
    match _dangling : aig.dangling? id with
    | none => aig.reclaim stack
    | some fanins =>
      let rest := (aig.removeGate id fanins).reclaim
        (fanins.second.node :: fanins.first.node :: stack)
      (rest.1, id :: rest.2)
  termination_by stack => 2 * aig.gates.length + stack.length
  decreasing_by
    · simp
    · have fewer := length_gates_removeGate_lt _dangling
      simp only [List.length_cons]
      omega

/-- Reclaims every dangling gate, with whatever only dangling gates read. -/
def cleanup (aig : Aig) : Aig :=
  (List.range' 1 (aig.size - 1)).foldl (fun aig id => (aig.reclaim [id]).1) aig

end Aig

end AndInverter
