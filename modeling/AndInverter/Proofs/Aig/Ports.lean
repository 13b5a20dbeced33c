import AndInverter.Proofs.Aig.Changes

/-!
# The constant and the inputs

Every elementary change keeps the constant in its place and the inputs as
they were: the input nodes are exactly the registered inputs, each registered
once.
-/

namespace AndInverter

namespace Aig

/-- Where the constant and the inputs are. -/
structure Ports (aig : Aig) : Prop extends Placed aig where
  constant : aig.node? 0 = some .constant
  inputs : aig.InputsStored
  registered : ∀ id name, aig.node? id = some (.input name) → id ∈ aig.inputs
  nodup : aig.inputs.toList.Nodup

theorem Ports.isGate_constant {aig : Aig} (ports : aig.Ports) : aig.isGate 0 = false := by
  rw [isGate, gateFanins?, ports.constant]
  rfl

theorem Ports.live_cases {aig : Aig} (ports : aig.Ports) {id : Nat}
    (live : aig.isDead id = false) : id = 0 ∨ id ∈ aig.inputs ∨ aig.isGate id = true := by
  obtain ⟨node, stored⟩ := isDead_eq_false_iff.mp live
  cases node with
  | constant => exact .inl (ports.position id .constant stored).symm
  | input name => exact .inr (.inl (ports.registered id name stored))
  | gate name fanins =>
      exact .inr (.inr (isGate_iff.mpr ⟨fanins, gateFanins?_eq_some_iff.mpr ⟨name, stored⟩⟩))

theorem Ports.isGate_input {aig : Aig} (ports : aig.Ports) {id : Nat} (listed : id ∈ aig.inputs) :
    aig.isGate id = false := by
  rw [isGate, gateFanins?, ports.inputs id listed]
  rfl

theorem Ports.zero_not_mem_inputs {aig : Aig} (ports : aig.Ports) : 0 ∉ aig.inputs.toList := by
  intro member
  have stored := ports.inputs 0 (Array.mem_toList_iff.mp member)
  rw [ports.constant] at stored
  cases stored

theorem Ports.of_gates_changed {aig next : Aig} (ports : aig.Ports)
    (inputs : next.inputs = aig.inputs)
    (nodes : ∀ id, next.node? id = aig.node? id ∨
      (aig.isGate id = true ∨ id = aig.size) ∧
        (next.node? id = none ∨ ∃ fanins, next.node? id = some (.gate id fanins))) :
    next.Ports := by
  have untouched : ∀ id node, aig.node? id = some node → node.isGate = false →
      next.node? id = some node := by
    intro id node stored noGate
    rcases nodes id with same | ⟨gate | new, _⟩
    · rw [same, stored]
    · obtain ⟨fanins, isGate⟩ := isGate_iff.mp gate
      obtain ⟨name, present⟩ := gateFanins?_eq_some_iff.mp isGate
      rw [stored] at present
      cases present
      cases noGate
    · exact absurd new (Nat.ne_of_lt (lt_size_of_node? stored))
  have former : ∀ id node, next.node? id = some node →
      aig.node? id = some node ∨ ∃ fanins, node = .gate id fanins := by
    intro id node present
    rcases nodes id with same | ⟨_, absent | ⟨fanins, isGate⟩⟩
    · exact .inl (same ▸ present)
    · rw [absent] at present
      cases present
    · rw [isGate] at present
      cases present
      exact .inr ⟨fanins, rfl⟩
  have constant := untouched 0 .constant ports.constant rfl
  refine { position := ?_, reserved := ?_, constant := constant, inputs := ?_,
           registered := ?_, nodup := ?_ }
  · intro id node present
    rcases former id node present with stored | ⟨fanins, rfl⟩
    · exact ports.position id node stored
    · rfl
  · intro node present
    exact Option.some.inj (present.symm.trans constant)
  · intro id member
    rw [inputs] at member
    exact untouched id _ (ports.inputs id member) rfl
  · intro id name present
    rw [inputs]
    rcases former id _ present with stored | ⟨fanins, isGate⟩
    · exact ports.registered id name stored
    · cases isGate
  · rw [inputs]
    exact ports.nodup

theorem ports_empty : Aig.empty.Ports := by
  have only : ∀ id node, Aig.empty.node? id = some node → id = 0 ∧ node = .constant := by
    intro id node stored
    cases id with
    | zero =>
        cases stored
        exact ⟨rfl, rfl⟩
    | succ id =>
        rw [node?, slot_of_size_le (Nat.le_add_left 1 id)] at stored
        cases stored
  refine { position := ?_, reserved := ?_, constant := rfl, inputs := ?_,
           registered := ?_, nodup := List.nodup_nil }
  · intro id node stored
    obtain ⟨rfl, rfl⟩ := only id node stored
    rfl
  · intro node stored
    exact (only 0 node stored).2
  · intro id member
    cases Array.not_mem_empty id member
  · intro id name stored
    cases (only id _ stored).2

theorem ports_addInput {aig : Aig} (ports : aig.Ports) : aig.addInput.2.Ports := by
  have inputs : aig.addInput.2.inputs = aig.inputs.push aig.size := rfl
  have positive : 0 < aig.size := lt_size_of_node? ports.constant
  have untouched : ∀ id node, aig.node? id = some node →
      aig.addInput.2.node? id = some node := by
    intro id node stored
    rw [node?_addInput, if_neg (Nat.ne_of_lt (lt_size_of_node? stored)), stored]
  have constant := untouched 0 .constant ports.constant
  refine { position := ?_, reserved := ?_, constant := constant, inputs := ?_,
           registered := ?_, nodup := ?_ }
  · intro id node present
    rw [node?_addInput] at present
    split at present
    · rename_i new
      cases present
      exact new.symm
    · exact ports.position id node present
  · intro node present
    exact Option.some.inj (present.symm.trans constant)
  · intro id member
    rw [inputs] at member
    rcases Array.mem_push.mp member with registered | rfl
    · exact untouched id _ (ports.inputs id registered)
    · rw [node?_addInput, if_pos rfl]
  · intro id name present
    rw [inputs]
    rw [node?_addInput] at present
    split at present
    · rename_i new
      exact Array.mem_push.mpr (.inr new)
    · exact Array.mem_push.mpr (.inl (ports.registered id name present))
  · rw [inputs, Array.toList_push]
    apply List.nodup_append.mpr
    refine ⟨ports.nodup, by simp, ?_⟩
    intro id member other last same
    rw [same, List.mem_singleton.mp last] at member
    exact Nat.lt_irrefl _ (lt_size_of_node? (ports.inputs _ (Array.mem_toList_iff.mp member)))

theorem Edit.gates_or_input {olds : Nat → Prop} {aig next : Aig} (edit : Edit olds aig next) :
    next = aig.addInput.2 ∨
      next.inputs = aig.inputs ∧ ∀ id, next.node? id = aig.node? id ∨
        (aig.isGate id = true ∨ id = aig.size) ∧
          (next.node? id = none ∨ ∃ fanins, next.node? id = some (.gate id fanins)) := by
  cases edit with
  | addInput => exact .inl rfl
  | addOutput live => exact .inr ⟨rfl, fun id => .inl (node?_appendOutput ..)⟩
  | @addGate fanins normal first second absent =>
      refine .inr ⟨rfl, fun id => ?_⟩
      rw [node?_addGate]
      split
      · rename_i new
        exact .inr ⟨.inr new, .inr ⟨fanins, by rw [new]⟩⟩
      · exact .inl rfl
  | redirect _ applies => exact .inr ⟨rfl, fun id => .inl (node?_redirectOutputs ..)⟩
  | @rewire gate before after substitution listed applies stored replaced unmerged =>
      refine .inr ⟨inputs_setFanins after substitution, fun id => ?_⟩
      rw [node?_setFanins aig after substitution stored]
      split
      · rename_i own
        subst own
        exact .inr ⟨.inl (isGate_iff.mpr ⟨before, stored⟩), .inr ⟨after, rfl⟩⟩
      · exact .inl rfl
  | @remove id fanins dangling =>
      refine .inr ⟨inputs_removeGate aig id fanins, fun other => ?_⟩
      rw [node?_removeGate]
      split
      · rename_i own
        exact .inr ⟨.inl (own.1 ▸ isGate_of_dangling? dangling), .inl rfl⟩
      · exact .inl rfl

/-- Elementary changes keep the constant and the inputs. -/
theorem Edit.ports {olds : Nat → Prop} {aig next : Aig} (edit : Edit olds aig next)
    (ports : aig.Ports) : next.Ports := by
  rcases edit.gates_or_input with rfl | ⟨inputs, nodes⟩
  · exact ports_addInput ports
  · exact ports.of_gates_changed inputs nodes

theorem Edits.ports {olds : Nat → Prop} {aig next : Aig} (edits : Edits olds aig next)
    (ports : aig.Ports) : next.Ports :=
  edits.keep Ports (fun edit => edit.ports) ports

theorem Ports.isGate_or_isDead {aig next : Aig} (ports : aig.Ports) (later : next.Ports)
    (inputs : next.inputs = aig.inputs) {id : Nat} (isGate : aig.isGate id = true) :
    next.isGate id = true ∨ next.isDead id = true := by
  obtain ⟨fanins, stored⟩ := isGate_iff.mp isGate
  obtain ⟨name, former⟩ := gateFanins?_eq_some_iff.mp stored
  cases present : next.node? id with
  | none => exact .inr (by simp [isDead, present])
  | some node =>
      cases node with
      | constant =>
          have zero : 0 = id := later.position id .constant present
          rw [← zero, ports.constant] at former
          cases former
      | input other =>
          have registered := later.registered id other present
          rw [inputs] at registered
          rw [ports.inputs id registered] at former
          cases former
      | gate other pair =>
          exact .inl (isGate_iff.mpr ⟨pair, gateFanins?_eq_some_iff.mpr ⟨other, present⟩⟩)

end Aig

end AndInverter
