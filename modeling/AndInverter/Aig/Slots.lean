import AndInverter.Aig.Basic

/-!
# Slots after a change

What each elementary change of a store does to the slots and to the views of
a slot.  The main statements, `slot_modifySlot` and `slot_allocate`, give the
slot of every identifier after a change.
-/

namespace AndInverter

namespace Aig

theorem slot_of_size_le {aig : Aig} {id : Nat} (beyond : aig.size ≤ id) :
    aig.slot id = Slot.vacant := by
  simp [slot, Array.getD, Nat.not_lt.mpr (show aig.slots.size ≤ id from beyond)]

theorem lt_size_of_node? {aig : Aig} {id : Nat} {node : Node}
    (stored : aig.node? id = some node) : id < aig.size := by
  refine Nat.lt_of_not_le fun beyond => ?_
  simp [node?, slot_of_size_le beyond, Slot.vacant] at stored

@[simp] theorem size_modifySlot (aig : Aig) (id : Nat) (change : Slot → Slot) :
    (aig.modifySlot id change).size = aig.size := by
  simp [modifySlot, size]

theorem slot_modifySlot (aig : Aig) (id other : Nat) (change : Slot → Slot) :
    (aig.modifySlot id change).slot other =
      if id = other ∧ other < aig.size then change (aig.slot other)
      else aig.slot other := by
  by_cases inside : other < aig.slots.size
  · by_cases same : id = other <;>
      simp [slot, modifySlot, size, Array.getD, inside, same, Array.getElem_modify]
  · simp [slot, modifySlot, size, Array.getD, inside]

@[simp] theorem node?_setNode (aig : Aig) (id other : Nat) (node : Option Node) :
    (aig.setNode id node).node? other =
      if id = other ∧ other < aig.size then node else aig.node? other := by
  simp only [node?, setNode, slot_modifySlot]
  split <;> rfl

@[simp] theorem node?_addFanout (aig : Aig) (id gate other : Nat) :
    (aig.addFanout id gate).node? other = aig.node? other := by
  simp only [node?, addFanout, slot_modifySlot]
  split <;> rfl

@[simp] theorem node?_dropFanout (aig : Aig) (id gate other : Nat) :
    (aig.dropFanout id gate).node? other = aig.node? other := by
  simp only [node?, dropFanout, slot_modifySlot]
  split <;> rfl

@[simp] theorem node?_adjustRefs (aig : Aig) (id other : Nat) (adjust : Nat → Nat) :
    (aig.adjustRefs id adjust).node? other = aig.node? other := by
  simp only [node?, adjustRefs, slot_modifySlot]
  split <;> rfl

@[simp] theorem fanouts_setNode (aig : Aig) (id other : Nat) (node : Option Node) :
    (aig.setNode id node).fanouts other = aig.fanouts other := by
  simp only [fanouts, setNode, slot_modifySlot]
  split <;> rfl

@[simp] theorem fanouts_addFanout (aig : Aig) (id gate other : Nat) :
    (aig.addFanout id gate).fanouts other =
      if id = other ∧ other < aig.size then aig.fanouts other ++ [gate]
      else aig.fanouts other := by
  simp only [fanouts, addFanout, slot_modifySlot]
  split <;> rfl

@[simp] theorem fanouts_dropFanout (aig : Aig) (id gate other : Nat) :
    (aig.dropFanout id gate).fanouts other =
      if id = other then (aig.fanouts other).filter (· ≠ gate)
      else aig.fanouts other := by
  simp only [fanouts, dropFanout, slot_modifySlot]
  by_cases inside : other < aig.size
  · simp only [inside, and_true]
    split <;> rfl
  · simp [inside, slot_of_size_le (Nat.le_of_not_lt inside), Slot.vacant]

@[simp] theorem fanouts_adjustRefs (aig : Aig) (id other : Nat) (adjust : Nat → Nat) :
    (aig.adjustRefs id adjust).fanouts other = aig.fanouts other := by
  simp only [fanouts, adjustRefs, slot_modifySlot]
  split <;> rfl

@[simp] theorem outputRefs_setNode (aig : Aig) (id other : Nat) (node : Option Node) :
    (aig.setNode id node).outputRefs other = aig.outputRefs other := by
  simp only [outputRefs, setNode, slot_modifySlot]
  split <;> rfl

@[simp] theorem outputRefs_addFanout (aig : Aig) (id gate other : Nat) :
    (aig.addFanout id gate).outputRefs other = aig.outputRefs other := by
  simp only [outputRefs, addFanout, slot_modifySlot]
  split <;> rfl

@[simp] theorem outputRefs_dropFanout (aig : Aig) (id gate other : Nat) :
    (aig.dropFanout id gate).outputRefs other = aig.outputRefs other := by
  simp only [outputRefs, dropFanout, slot_modifySlot]
  split <;> rfl

@[simp] theorem outputRefs_adjustRefs (aig : Aig) (id other : Nat) (adjust : Nat → Nat) :
    (aig.adjustRefs id adjust).outputRefs other =
      if id = other ∧ other < aig.size then adjust (aig.outputRefs other)
      else aig.outputRefs other := by
  simp only [outputRefs, adjustRefs, slot_modifySlot]
  split <;> rfl

@[simp] theorem slots_unhash (aig : Aig) (fanins : Fanins) (gate : Nat) :
    (aig.unhash fanins gate).slots = aig.slots := by
  simp only [unhash]
  split <;> rfl

@[simp] theorem slot_unhash (aig : Aig) (fanins : Fanins) (gate other : Nat) :
    (aig.unhash fanins gate).slot other = aig.slot other := by
  simp [slot]

@[simp] theorem node?_unhash (aig : Aig) (fanins : Fanins) (gate other : Nat) :
    (aig.unhash fanins gate).node? other = aig.node? other := by
  simp [node?]

@[simp] theorem size_unhash (aig : Aig) (fanins : Fanins) (gate : Nat) :
    (aig.unhash fanins gate).size = aig.size := by
  simp [size]

@[simp] theorem size_setNode (aig : Aig) (id : Nat) (node : Option Node) :
    (aig.setNode id node).size = aig.size :=
  size_modifySlot ..

@[simp] theorem size_addFanout (aig : Aig) (id gate : Nat) :
    (aig.addFanout id gate).size = aig.size :=
  size_modifySlot ..

@[simp] theorem size_dropFanout (aig : Aig) (id gate : Nat) :
    (aig.dropFanout id gate).size = aig.size :=
  size_modifySlot ..

@[simp] theorem size_adjustRefs (aig : Aig) (id : Nat) (adjust : Nat → Nat) :
    (aig.adjustRefs id adjust).size = aig.size :=
  size_modifySlot ..

@[simp] theorem size_allocate (aig : Aig) (node : Node) :
    (aig.allocate node).size = aig.size + 1 := by
  simp [allocate, size]

theorem slot_allocate (aig : Aig) (node : Node) (other : Nat) :
    (aig.allocate node).slot other =
      if other = aig.size then Slot.fresh node else aig.slot other := by
  simp only [slot, allocate, size, Array.getD, Array.size_push]
  by_cases last : other = aig.slots.size
  · simp [last]
  · by_cases inside : other < aig.slots.size
    · have below : other < aig.slots.size + 1 := by omega
      simp [last, inside, below, Array.getElem_push]
    · have beyond : ¬ other < aig.slots.size + 1 := by omega
      simp [last, inside, beyond]

theorem mem_gates {aig : Aig} {id : Nat} :
    id ∈ aig.gates ↔ aig.isGate id = true := by
  simp only [gates, List.mem_filter, List.mem_range, and_iff_right_iff_imp]
  intro gate
  cases stored : aig.node? id with
  | none => simp [isGate, gateFanins?, stored] at gate
  | some node => exact lt_size_of_node? stored

theorem fanins_of_size_le {aig : Aig} {id : Nat} (beyond : aig.size ≤ id) :
    aig.fanins id = [] := by
  simp [fanins, gateFanins?, node?, slot_of_size_le beyond, Slot.vacant]

theorem isGate_of_fanins {aig : Aig} {id : Nat} (present : aig.fanins id ≠ []) :
    aig.isGate id = true := by
  cases gate : aig.gateFanins? id with
  | none => simp [fanins, gate] at present
  | some fanins => simp [isGate, gate]

end Aig

end AndInverter
