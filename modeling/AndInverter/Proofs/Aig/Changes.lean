import AndInverter.Aig.WellFormed
import AndInverter.Proofs.Aig.Edits

/-!
# Views of a changed store

What each elementary change does to the fanins of gates, to fanouts and
counters, to the structural table and to the ports.
-/

namespace AndInverter

namespace Aig

theorem isGate_iff {aig : Aig} {id : Nat} :
    aig.isGate id = true ↔ ∃ fanins, aig.gateFanins? id = some fanins :=
  Option.isSome_iff_exists

theorem gateFanins?_eq_some_iff {aig : Aig} {id : Nat} {fanins : Fanins} :
    aig.gateFanins? id = some fanins ↔ ∃ name, aig.node? id = some (.gate name fanins) := by
  simp only [gateFanins?, Option.bind_eq_some_iff]
  constructor
  · intro found
    obtain ⟨node, stored, isGate⟩ := found
    cases node with
    | gate name pair =>
        cases isGate
        exact ⟨name, stored⟩
    | constant => cases isGate
    | input name => cases isGate
  · intro found
    obtain ⟨name, stored⟩ := found
    exact ⟨_, stored, rfl⟩

theorem isDead_eq_false_iff {aig : Aig} {id : Nat} :
    aig.isDead id = false ↔ ∃ node, aig.node? id = some node := by
  rw [isDead, Option.isNone_eq_false_iff, Option.isSome_iff_exists]

theorem lt_size_of_live {aig : Aig} {id : Nat} (live : aig.isDead id = false) :
    id < aig.size := by
  obtain ⟨node, stored⟩ := isDead_eq_false_iff.mp live
  exact lt_size_of_node? stored

/-! ### The structural table -/

@[simp] theorem getElem?_hash (aig : Aig) (fanins key : Fanins) (gate : Nat) :
    (aig.hash fanins gate).table[key]? =
      if fanins = key then some gate else aig.table[key]? := by
  simp [hash, Std.TreeMap.getElem?_insert, Std.LawfulEqCmp.compare_eq_iff_eq]

@[simp] theorem getElem?_unhash (aig : Aig) (fanins key : Fanins) (gate : Nat) :
    (aig.unhash fanins gate).table[key]? =
      if fanins = key ∧ aig.table[fanins]? = some gate then none else aig.table[key]? := by
  unfold unhash
  split
  · rename_i leads
    simp [leads, Std.TreeMap.getElem?_erase, Std.LawfulEqCmp.compare_eq_iff_eq]
  · rename_i other
    simp [other]

@[simp] theorem table_modifySlot (aig : Aig) (id : Nat) (change : Slot → Slot) :
    (aig.modifySlot id change).table = aig.table :=
  rfl

@[simp] theorem table_allocate (aig : Aig) (node : Node) :
    (aig.allocate node).table = aig.table :=
  rfl

@[simp] theorem size_hash (aig : Aig) (fanins : Fanins) (gate : Nat) :
    (aig.hash fanins gate).size = aig.size :=
  rfl

@[simp] theorem fanouts_hash (aig : Aig) (fanins : Fanins) (gate id : Nat) :
    (aig.hash fanins gate).fanouts id = aig.fanouts id :=
  rfl

@[simp] theorem outputRefs_hash (aig : Aig) (fanins : Fanins) (gate id : Nat) :
    (aig.hash fanins gate).outputRefs id = aig.outputRefs id :=
  rfl

/-! ### Inputs and outputs -/

@[simp] theorem inputs_modifySlot (aig : Aig) (id : Nat) (change : Slot → Slot) :
    (aig.modifySlot id change).inputs = aig.inputs :=
  rfl

@[simp] theorem inputs_hash (aig : Aig) (fanins : Fanins) (gate : Nat) :
    (aig.hash fanins gate).inputs = aig.inputs :=
  rfl

@[simp] theorem inputs_unhash (aig : Aig) (fanins : Fanins) (gate : Nat) :
    (aig.unhash fanins gate).inputs = aig.inputs := by
  unfold unhash
  split <;> rfl

@[simp] theorem outputs_modifySlot (aig : Aig) (id : Nat) (change : Slot → Slot) :
    (aig.modifySlot id change).outputs = aig.outputs :=
  rfl

@[simp] theorem outputs_hash (aig : Aig) (fanins : Fanins) (gate : Nat) :
    (aig.hash fanins gate).outputs = aig.outputs :=
  rfl

@[simp] theorem outputs_unhash (aig : Aig) (fanins : Fanins) (gate : Nat) :
    (aig.unhash fanins gate).outputs = aig.outputs := by
  unfold unhash
  split <;> rfl

/-! ### Redirected outputs -/

@[simp] theorem node?_redirectOutputs (aig : Aig) (substitution : Substitution) (id : Nat) :
    (aig.redirectOutputs substitution).node? id = aig.node? id := by
  simp only [redirectOutputs, node?_adjustRefs]
  rfl

@[simp] theorem gateFanins?_redirectOutputs (aig : Aig) (substitution : Substitution)
    (id : Nat) :
    (aig.redirectOutputs substitution).gateFanins? id = aig.gateFanins? id := by
  simp [gateFanins?]

@[simp] theorem fanouts_redirectOutputs (aig : Aig) (substitution : Substitution) (id : Nat) :
    (aig.redirectOutputs substitution).fanouts id = aig.fanouts id := by
  simp only [redirectOutputs, fanouts_adjustRefs]
  rfl

theorem outputRefs_redirectOutputs (aig : Aig) {substitution : Substitution}
    (applies : aig.applies substitution = true) (id : Nat) :
    (aig.redirectOutputs substitution).outputRefs id =
      if substitution.new.node = id then
        aig.outputRefs id + aig.outputs.countP (·.node = substitution.old)
      else if substitution.old = id then
        aig.outputRefs id - aig.outputs.countP (·.node = substitution.old)
      else aig.outputRefs id := by
  obtain ⟨different, oldLive, newLive⟩ := applies_iff.mp applies
  have oldInside := lt_size_of_live oldLive
  have newInside := lt_size_of_live newLive
  have same : ∀ outputs : Array Edge,
      ({ aig with outputs := outputs } : Aig).outputRefs id = aig.outputRefs id := fun _ => rfl
  have sizes : ∀ outputs : Array Edge,
      ({ aig with outputs := outputs } : Aig).size = aig.size := fun _ => rfl
  simp only [redirectOutputs, outputRefs_adjustRefs, size_adjustRefs, same, sizes]
  by_cases isNew : substitution.new.node = id
  · subst isNew
    simp [newInside, Ne.symm different]
  · by_cases isOld : substitution.old = id
    · subst isOld
      simp [oldInside, different]
    · simp [isNew, isOld]

@[simp] theorem outputs_redirectOutputs (aig : Aig) (substitution : Substitution) :
    (aig.redirectOutputs substitution).outputs = aig.outputs.map (redirect substitution) :=
  rfl

@[simp] theorem table_redirectOutputs (aig : Aig) (substitution : Substitution) :
    (aig.redirectOutputs substitution).table = aig.table :=
  rfl

/-! ### A gate with other fanins -/

section SetFanins

variable {aig : Aig} {gate : Nat} {before : Fanins}

theorem gateFanins?_setFanins (after : Fanins) (substitution : Substitution)
    (stored : aig.gateFanins? gate = some before) (id : Nat) :
    (aig.setFanins gate before after substitution).gateFanins? id =
      if gate = id then some after else aig.gateFanins? id := by
  rw [gateFanins?, node?_setFanins aig after substitution stored]
  split
  · rfl
  · rfl

theorem size_setFanins (after : Fanins) (substitution : Substitution) :
    (aig.setFanins gate before after substitution).size = aig.size := by
  simp [setFanins]

theorem fanouts_setFanins (after : Fanins) {substitution : Substitution}
    (applies : aig.applies substitution = true) (id : Nat) :
    (aig.setFanins gate before after substitution).fanouts id =
      if substitution.new.node = id then aig.fanouts id ++ [gate]
      else if substitution.old = id then (aig.fanouts id).filter (· ≠ gate)
      else aig.fanouts id := by
  obtain ⟨different, _, newLive⟩ := applies_iff.mp applies
  have newInside := lt_size_of_live newLive
  have unhashed : (aig.unhash before gate).fanouts id = aig.fanouts id := by
    simp [fanouts]
  simp only [setFanins, fanouts_addFanout, fanouts_dropFanout, size_dropFanout, size_hash,
    fanouts_hash, fanouts_setNode, size_setNode, size_unhash, unhashed]
  by_cases isNew : substitution.new.node = id
  · subst isNew
    simp [newInside, Ne.symm different]
  · simp [isNew]

theorem outputRefs_setFanins (after : Fanins) (substitution : Substitution) (id : Nat) :
    (aig.setFanins gate before after substitution).outputRefs id = aig.outputRefs id := by
  simp only [setFanins, outputRefs_addFanout, outputRefs_dropFanout, outputRefs_hash,
    outputRefs_setNode]
  simp [outputRefs]

theorem outputs_setFanins (after : Fanins) (substitution : Substitution) :
    (aig.setFanins gate before after substitution).outputs = aig.outputs := by
  simp [setFanins, setNode, addFanout, dropFanout]

theorem inputs_setFanins (after : Fanins) (substitution : Substitution) :
    (aig.setFanins gate before after substitution).inputs = aig.inputs := by
  simp [setFanins, setNode, addFanout, dropFanout]

theorem getElem?_setFanins (after : Fanins) (substitution : Substitution) (key : Fanins) :
    (aig.setFanins gate before after substitution).table[key]? =
      if after = key then some gate
      else if before = key ∧ aig.table[before]? = some gate then none
      else aig.table[key]? := by
  simp [setFanins, addFanout, dropFanout, setNode]

end SetFanins

/-! ### A reclaimed gate -/

@[simp] theorem node?_removeGate (aig : Aig) (id other : Nat) (fanins : Fanins) :
    (aig.removeGate id fanins).node? other =
      if id = other ∧ other < aig.size then none else aig.node? other := by
  simp [removeGate]

theorem gateFanins?_removeGate (aig : Aig) (id other : Nat) (fanins : Fanins) :
    (aig.removeGate id fanins).gateFanins? other =
      if id = other then none else aig.gateFanins? other := by
  by_cases same : id = other
  · subst same
    by_cases inside : id < aig.size
    · simp [gateFanins?, inside]
    · have vacant : aig.node? id = none := by
        simp [node?, slot_of_size_le (Nat.le_of_not_lt inside), Slot.vacant]
      simp [gateFanins?, inside, vacant]
  · simp [gateFanins?, same]

theorem fanouts_removeGate (aig : Aig) (id other : Nat) (fanins : Fanins) :
    (aig.removeGate id fanins).fanouts other =
      if fanins.first.node = other ∨ fanins.second.node = other then
        (aig.fanouts other).filter (· ≠ id)
      else aig.fanouts other := by
  have unhashed : (aig.unhash fanins id).fanouts other = aig.fanouts other := by
    simp [fanouts]
  simp only [removeGate, fanouts_dropFanout, fanouts_setNode, unhashed]
  by_cases isFirst : fanins.first.node = other <;>
    by_cases isSecond : fanins.second.node = other <;>
      simp [isFirst, isSecond, List.filter_filter]

@[simp] theorem outputRefs_removeGate (aig : Aig) (id other : Nat) (fanins : Fanins) :
    (aig.removeGate id fanins).outputRefs other = aig.outputRefs other := by
  simp only [removeGate, outputRefs_dropFanout, outputRefs_setNode]
  simp [outputRefs]

@[simp] theorem outputs_removeGate (aig : Aig) (id : Nat) (fanins : Fanins) :
    (aig.removeGate id fanins).outputs = aig.outputs := by
  simp [removeGate, setNode, dropFanout]

@[simp] theorem inputs_removeGate (aig : Aig) (id : Nat) (fanins : Fanins) :
    (aig.removeGate id fanins).inputs = aig.inputs := by
  simp [removeGate, setNode, dropFanout]

theorem outputs_reclaim (aig : Aig) (stack : List Nat) :
    (aig.reclaim stack).1.outputs = aig.outputs := by
  apply reclaim_keep (fun store => store.outputs = aig.outputs)
  · intro store id fanins _ same
    exact (outputs_removeGate store id fanins).trans same
  · rfl

@[simp] theorem getElem?_removeGate (aig : Aig) (id : Nat) (fanins key : Fanins) :
    (aig.removeGate id fanins).table[key]? =
      if fanins = key ∧ aig.table[fanins]? = some id then none else aig.table[key]? := by
  simp [removeGate, dropFanout, setNode]

/-! ### A new node -/

theorem node?_allocate (aig : Aig) (node : Node) (id : Nat) :
    (aig.allocate node).node? id = if id = aig.size then some node else aig.node? id := by
  simp only [node?, slot_allocate]
  split <;> rfl

theorem fanouts_allocate (aig : Aig) (node : Node) (id : Nat) :
    (aig.allocate node).fanouts id = if id = aig.size then [] else aig.fanouts id := by
  simp only [fanouts, slot_allocate]
  split <;> rfl

theorem outputRefs_allocate (aig : Aig) (node : Node) (id : Nat) :
    (aig.allocate node).outputRefs id = if id = aig.size then 0 else aig.outputRefs id := by
  simp only [outputRefs, slot_allocate]
  split <;> rfl

theorem node?_addGate (aig : Aig) (fanins : Fanins) (id : Nat) :
    (aig.addGate fanins).2.node? id =
      if id = aig.size then some (.gate aig.size fanins) else aig.node? id := by
  simp only [addGate, node?_addFanout, node?_hash, node?_allocate]

theorem gateFanins?_addGate (aig : Aig) (fanins : Fanins) (id : Nat) :
    (aig.addGate fanins).2.gateFanins? id =
      if id = aig.size then some fanins else aig.gateFanins? id := by
  rw [gateFanins?, node?_addGate]
  split
  · rfl
  · rfl

@[simp] theorem size_addGate (aig : Aig) (fanins : Fanins) :
    (aig.addGate fanins).2.size = aig.size + 1 := by
  simp [addGate]

theorem fanouts_addGate (aig : Aig) {fanins : Fanins} (normal : fanins.isNormal = true)
    (first : aig.isDead fanins.first.node = false)
    (second : aig.isDead fanins.second.node = false) (id : Nat) :
    (aig.addGate fanins).2.fanouts id =
      if id = aig.size then []
      else if fanins.first.node = id ∨ fanins.second.node = id then
        aig.fanouts id ++ [aig.size]
      else aig.fanouts id := by
  obtain ⟨_, different, _⟩ := Fanins.isNormal_iff.mp normal
  have firstInside := lt_size_of_live first
  have secondInside := lt_size_of_live second
  simp only [addGate, fanouts_addFanout, size_addFanout, size_hash, fanouts_hash,
    fanouts_allocate, size_allocate]
  by_cases isFirst : fanins.first.node = id
  · subst isFirst
    simp [Ne.symm different, Nat.ne_of_lt firstInside, Nat.lt_succ_of_lt firstInside]
  · by_cases isSecond : fanins.second.node = id
    · subst isSecond
      simp [isFirst, Nat.ne_of_lt secondInside, Nat.lt_succ_of_lt secondInside]
    · simp [isFirst, isSecond]

theorem outputRefs_addGate (aig : Aig) (fanins : Fanins) (id : Nat) :
    (aig.addGate fanins).2.outputRefs id =
      if id = aig.size then 0 else aig.outputRefs id := by
  simp only [addGate, outputRefs_addFanout, outputRefs_hash, outputRefs_allocate]

@[simp] theorem node?_addInput (aig : Aig) (id : Nat) :
    aig.addInput.2.node? id = if id = aig.size then some (.input aig.size) else aig.node? id :=
  node?_allocate aig _ id

@[simp] theorem size_addInput (aig : Aig) : aig.addInput.2.size = aig.size + 1 :=
  size_allocate aig _

theorem gateFanins?_eq_none_of_size_le {aig : Aig} {id : Nat} (beyond : aig.size ≤ id) :
    aig.gateFanins? id = none := by
  simp [gateFanins?, node?, slot_of_size_le beyond, Slot.vacant]

theorem fanouts_of_size_le {aig : Aig} {id : Nat} (beyond : aig.size ≤ id) :
    aig.fanouts id = [] := by
  simp [fanouts, slot_of_size_le beyond, Slot.vacant]

theorem outputRefs_of_size_le {aig : Aig} {id : Nat} (beyond : aig.size ≤ id) :
    aig.outputRefs id = 0 := by
  simp [outputRefs, slot_of_size_le beyond, Slot.vacant]

@[simp] theorem gateFanins?_addInput (aig : Aig) (id : Nat) :
    aig.addInput.2.gateFanins? id = aig.gateFanins? id := by
  rw [gateFanins?, node?_addInput]
  split
  · rename_i new
    rw [gateFanins?_eq_none_of_size_le (Nat.le_of_eq new.symm)]
    rfl
  · rfl

@[simp] theorem fanouts_addInput (aig : Aig) (id : Nat) :
    aig.addInput.2.fanouts id = aig.fanouts id := by
  apply (fanouts_allocate aig _ id).trans
  split
  · rename_i new
    rw [fanouts_of_size_le (Nat.le_of_eq new.symm)]
  · rfl

@[simp] theorem outputRefs_addInput (aig : Aig) (id : Nat) :
    aig.addInput.2.outputRefs id = aig.outputRefs id := by
  apply (outputRefs_allocate aig _ id).trans
  split
  · rename_i new
    rw [outputRefs_of_size_le (Nat.le_of_eq new.symm)]
  · rfl

@[simp] theorem outputs_addInput (aig : Aig) : aig.addInput.2.outputs = aig.outputs :=
  rfl

@[simp] theorem table_addInput (aig : Aig) : aig.addInput.2.table = aig.table :=
  rfl

@[simp] theorem outputs_addGate (aig : Aig) (fanins : Fanins) :
    (aig.addGate fanins).2.outputs = aig.outputs :=
  rfl

@[simp] theorem getElem?_addGate (aig : Aig) (fanins key : Fanins) :
    (aig.addGate fanins).2.table[key]? =
      if fanins = key then some aig.size else aig.table[key]? := by
  simp [addGate, addFanout]

/-! ### A new output -/

@[simp] theorem node?_appendOutput (aig : Aig) (edge : Edge) (id : Nat) :
    (aig.appendOutput edge).node? id = aig.node? id :=
  node?_adjustRefs aig edge.node id _

@[simp] theorem gateFanins?_appendOutput (aig : Aig) (edge : Edge) (id : Nat) :
    (aig.appendOutput edge).gateFanins? id = aig.gateFanins? id := by
  simp [gateFanins?]

@[simp] theorem fanouts_appendOutput (aig : Aig) (edge : Edge) (id : Nat) :
    (aig.appendOutput edge).fanouts id = aig.fanouts id :=
  fanouts_adjustRefs aig edge.node id _

@[simp] theorem outputRefs_appendOutput (aig : Aig) (edge : Edge) (id : Nat) :
    (aig.appendOutput edge).outputRefs id =
      if edge.node = id ∧ id < aig.size then aig.outputRefs id + 1 else aig.outputRefs id :=
  outputRefs_adjustRefs aig edge.node id _

@[simp] theorem outputs_appendOutput (aig : Aig) (edge : Edge) :
    (aig.appendOutput edge).outputs = aig.outputs.push edge :=
  rfl

@[simp] theorem table_appendOutput (aig : Aig) (edge : Edge) :
    (aig.appendOutput edge).table = aig.table :=
  rfl

/-! ### The arena -/

theorem Edit.size_le {olds : Nat → Prop} {aig next : Aig} (edit : Edit olds aig next) :
    aig.size ≤ next.size := by
  cases edit with
  | addInput =>
      rw [size_addInput]
      exact Nat.le_succ _
  | addOutput _ => exact Nat.le_of_eq (size_adjustRefs ..).symm
  | addGate _ _ _ _ =>
      rw [size_addGate]
      exact Nat.le_succ _
  | redirect _ _ =>
      rw [redirectOutputs, size_adjustRefs, size_adjustRefs]
      exact Nat.le_refl _
  | rewire _ _ _ _ _ => exact Nat.le_of_eq (size_setFanins ..).symm
  | remove _ => exact Nat.le_of_eq (size_removeGate ..).symm

theorem Edits.size_le {olds : Nat → Prop} {aig next : Aig} (edits : Edits olds aig next) :
    aig.size ≤ next.size :=
  edits.keep (fun store => aig.size ≤ store.size)
    (fun edit larger => Nat.le_trans larger edit.size_le) (Nat.le_refl _)

/-- An identifier that was handed out and names no node never names one
again. -/
theorem Edit.stays_dead {olds : Nat → Prop} {aig next : Aig} (edit : Edit olds aig next)
    {id : Nat} (inside : id < aig.size) (dead : aig.isDead id = true) :
    next.isDead id = true := by
  cases edit with
  | addInput => rwa [isDead, node?_addInput, if_neg (Nat.ne_of_lt inside)]
  | addOutput _ => rwa [isDead, node?_appendOutput]
  | addGate _ _ _ _ => rwa [isDead, node?_addGate, if_neg (Nat.ne_of_lt inside)]
  | redirect _ _ => rwa [isDead_redirectOutputs]
  | rewire _ _ stored _ _ => rwa [isDead_setFanins _ _ stored]
  | remove _ =>
      rw [isDead, node?_removeGate]
      split
      · rfl
      · exact dead

theorem Edits.stays_dead {olds : Nat → Prop} {aig next : Aig} (edits : Edits olds aig next)
    {id : Nat} (inside : id < aig.size) (dead : aig.isDead id = true) :
    next.isDead id = true := by
  have both : id < next.size ∧ next.isDead id = true :=
    edits.keep (fun store => id < store.size ∧ store.isDead id = true)
      (fun edit ⟨below, gone⟩ =>
        ⟨Nat.lt_of_lt_of_le below edit.size_le, edit.stays_dead below gone⟩)
      ⟨inside, dead⟩
  exact both.2

theorem Edits.live_before {olds : Nat → Prop} {aig next : Aig} (edits : Edits olds aig next)
    {id : Nat} (inside : id < aig.size) (live : next.isDead id = false) :
    aig.isDead id = false := by
  rw [← Bool.not_eq_true]
  intro dead
  rw [edits.stays_dead inside dead] at live
  cases live

end Aig

end AndInverter
