import AndInverter.Aig.Integrity
import AndInverter.Proofs.Aig.Evaluation

/-!
# What an integrity check demands

Each check succeeds exactly if the law holds that it looks for.  So a
well-formed store passes all of them, and a store that passes is hashed and
acyclic.
-/

namespace AndInverter

theorem forM_eq_ok_iff {Entry : Type} {check : Entry → Except Failure Unit}
    {entries : List Entry} {done : Unit} :
    entries.forM check = .ok done ↔ ∀ entry ∈ entries, check entry = .ok () := by
  induction entries with
  | nil => exact ⟨fun _ _ member => absurd member List.not_mem_nil, fun _ => rfl⟩
  | cons entry entries induction =>
      have first : (entry :: entries).forM check =
          (check entry >>= fun _ => entries.forM check) := rfl
      rw [first, bind_eq_ok, List.forall_mem_cons, ← induction]
      exact ⟨fun ⟨_, both⟩ => both, fun both => ⟨(), both⟩⟩

namespace Aig

variable {aig : Aig}

private theorem any_fanins_iff {gate id : Nat} :
    (aig.fanins gate).any (·.node == id) = true ↔ aig.GateReads gate id := by
  cases stored : aig.gateFanins? gate with
  | none => simp [fanins, GateReads, stored]
  | some pair => simp [fanins, GateReads, stored, Fanins.toList]

theorem checkFanouts_eq_ok_iff {id : Nat} {earlier later : List Nat} {done : Unit} :
    aig.checkFanouts id earlier later = .ok done ↔
      later.Nodup ∧ ∀ fanout ∈ later, fanout ∉ earlier ∧ aig.GateReads fanout id := by
  induction later generalizing earlier with
  | nil => simp [checkFanouts]
  | cons fanout later induction =>
      rw [List.forall_mem_cons]
      simp only [checkFanouts, bind_eq_ok, exists_const, demand_eq_ok, any_fanins_iff, induction,
        Bool.not_eq_true', List.contains_eq_mem, decide_eq_false_iff_not, List.nodup_cons,
        List.mem_cons, not_or]
      constructor
      · rintro ⟨absent, reads, nodup, rest⟩
        exact ⟨⟨fun member => (rest fanout member).1.1 rfl, nodup⟩, ⟨absent, reads⟩,
          fun other member => ⟨(rest other member).1.2, (rest other member).2⟩⟩
      · rintro ⟨⟨fresh, nodup⟩, ⟨absent, reads⟩, rest⟩
        refine ⟨absent, reads, nodup, fun other member => ⟨⟨?_, (rest other member).1⟩,
          (rest other member).2⟩⟩
        rintro rfl
        exact fresh member

theorem checkReads_eq_ok_iff {edge : Edge} {done : Unit} :
    aig.checkReads edge = .ok done ↔ aig.isDead edge.node = false := by
  simp [checkReads]

theorem checkFanin_eq_ok_iff {gate : Nat} {edge : Edge} {done : Unit} :
    aig.checkFanin gate edge = .ok done ↔
      aig.isDead edge.node = false ∧ gate ∈ aig.fanouts edge.node := by
  simp [checkFanin, checkReads_eq_ok_iff]

/-- What the check of a gate looks for. -/
structure GateInOrder (aig : Aig) (gate : Nat) (fanins : Fanins) : Prop where
  normal : fanins.isNormal = true
  hashed : aig.table[fanins]? = some gate
  first : aig.isDead fanins.first.node = false ∧ gate ∈ aig.fanouts fanins.first.node
  second : aig.isDead fanins.second.node = false ∧ gate ∈ aig.fanouts fanins.second.node

theorem checkGate_eq_ok_iff {gate : Nat} {fanins : Fanins} {done : Unit} :
    aig.checkGate gate fanins = .ok done ↔ gate ≠ 0 ∧ aig.GateInOrder gate fanins := by
  simp only [checkGate, bind_eq_ok, exists_const, demand_eq_ok, checkFanin_eq_ok_iff, bne_iff_ne,
    ne_eq, beq_iff_eq]
  constructor
  · rintro ⟨notConstant, normal, hashed, first, second⟩
    exact ⟨notConstant, normal, hashed, first, second⟩
  · rintro ⟨notConstant, inOrder⟩
    exact ⟨notConstant, inOrder.normal, inOrder.hashed, inOrder.first, inOrder.second⟩

structure NodeInOrder (aig : Aig) (position : Nat) (node : Node) : Prop where
  placed : node.id = position
  reserved : position = 0 → node = .constant
  gate : ∀ fanins, node.gateFanins? = some fanins → aig.GateInOrder position fanins
  nodup : (aig.fanouts position).Nodup
  reads : ∀ fanout ∈ aig.fanouts position, aig.GateReads fanout position

theorem checkNode_eq_ok_iff {position : Nat} {node : Node} {done : Unit} :
    aig.checkNode position node = .ok done ↔ aig.NodeInOrder position node := by
  have listed : aig.checkFanouts position [] (aig.fanouts position) = .ok done ↔
      (aig.fanouts position).Nodup ∧
        ∀ fanout ∈ aig.fanouts position, aig.GateReads fanout position := by
    simp [checkFanouts_eq_ok_iff]
  unfold checkNode
  rw [bind_eq_ok]
  simp only [demand_eq_ok, exists_const, beq_iff_eq]
  cases node with
  | constant =>
      simp only [listed]
      constructor
      · rintro ⟨placed, nodup, reads⟩
        refine ⟨placed, fun _ => rfl, fun fanins isGate => ?_, nodup, reads⟩
        cases isGate
      · intro inOrder
        exact ⟨inOrder.placed, inOrder.nodup, inOrder.reads⟩
  | input id =>
      simp only [bind_eq_ok, demand_eq_ok, bne_iff_ne, exists_const, listed]
      constructor
      · rintro ⟨rfl, notConstant, nodup, reads⟩
        refine ⟨rfl, fun zero => absurd zero notConstant, fun fanins isGate => ?_, nodup, reads⟩
        cases isGate
      · intro inOrder
        refine ⟨inOrder.placed, fun zero => ?_, inOrder.nodup, inOrder.reads⟩
        cases inOrder.reserved (inOrder.placed ▸ zero)
  | gate id fanins =>
      simp only [bind_eq_ok, checkGate_eq_ok_iff, exists_const, listed]
      constructor
      · rintro ⟨rfl, ⟨notConstant, own⟩, nodup, reads⟩
        refine ⟨rfl, fun zero => absurd zero notConstant, ?_, nodup, reads⟩
        rintro _ ⟨⟩
        exact own
      · intro inOrder
        have own := inOrder.gate fanins rfl
        rw [← inOrder.placed] at own
        refine ⟨inOrder.placed, ⟨fun zero => ?_, own⟩, inOrder.nodup, inOrder.reads⟩
        cases inOrder.reserved (inOrder.placed ▸ zero)

theorem refsAgree_iff :
    aig.refsAgree = true ↔
      ∀ id, id < aig.size → aig.outputRefs id = aig.outputs.countP (·.node == id) := by
  simp [refsAgree]

theorem checkSlots_eq_ok_iff :
    (∀ position ∈ List.range aig.size, aig.checkSlot position = .ok ()) ↔
      ∀ position node, aig.node? position = some node → aig.NodeInOrder position node := by
  constructor
  · intro checked position node stored
    have own := checked position (List.mem_range.mpr (lt_size_of_node? stored))
    simp only [checkSlot, stored] at own
    exact checkNode_eq_ok_iff.mp own
  · intro inOrder position _
    unfold checkSlot
    cases stored : aig.node? position with
    | none => rfl
    | some node => exact checkNode_eq_ok_iff.mpr (inOrder position node stored)

theorem checkEntries_eq_ok_iff :
    (∀ entry ∈ aig.table.toList, aig.checkEntry entry = .ok ()) ↔
      ∀ (fanins : Fanins) (gate : Nat), aig.table[fanins]? = some gate →
        aig.gateFanins? gate = some fanins := by
  simp only [Prod.forall, Std.TreeMap.mem_toList_iff_getElem?_eq_some, checkEntry,
    demand_eq_ok, beq_iff_eq]

/-- The check of a store looks for the order of its nodes, for its inputs and
outputs, for true entries of the table, and for a topological order. -/
theorem checkIntegrity_eq_ok_iff :
    aig.checkIntegrity = .ok () ↔
      (∀ position node, aig.node? position = some node → aig.NodeInOrder position node) ∧
      (∀ id ∈ aig.inputs, (aig.node? id).any Node.isInput = true) ∧
      (∀ output ∈ aig.outputs, aig.isDead output.node = false) ∧
      (∀ id, id < aig.size → aig.outputRefs id = aig.outputs.countP (·.node == id)) ∧
      (∀ (fanins : Fanins) (gate : Nat), aig.table[fanins]? = some gate →
        aig.gateFanins? gate = some fanins) ∧
      ∃ order, topologicalSort aig aig.liveNodes = .ok order := by
  simp only [checkIntegrity, bind_eq_ok, exists_const, forM_eq_ok_iff, checkSlots_eq_ok_iff,
    checkInput, demand_eq_ok, checkReads_eq_ok_iff, refsAgree_iff, checkEntries_eq_ok_iff,
    Array.mem_toList_iff, pure_eq_ok, and_true]

def OperandsInOrder (aig : Aig) : Prop :=
  ∀ gate fanins, aig.gateFanins? gate = some fanins →
    fanins.isNormal = true ∧ aig.isDead fanins.first.node = false ∧
      aig.isDead fanins.second.node = false

theorem References.operandsInOrder (references : aig.References) : aig.OperandsInOrder :=
  fun gate fanins stored => ⟨Fanins.isNormal_iff.mpr (references.normal gate fanins stored),
    fanins_live_of_stored references stored⟩

theorem OperandsInOrder.live_of_reads (operands : aig.OperandsInOrder) {gate id : Nat}
    (reads : aig.GateReads gate id) : aig.isDead id = false := by
  obtain ⟨fanins, stored, rfl | rfl⟩ := reads
  · exact (operands gate fanins stored).2.1
  · exact (operands gate fanins stored).2.2

/-- Node by node, the check looks at a gate from both of its fanins, and at a
node from each of its fanouts: together, fanins and fanouts agree. -/
theorem nodesInOrder_iff :
    (∀ position node, aig.node? position = some node → aig.NodeInOrder position node) ↔
      aig.Placed ∧ aig.OperandsInOrder ∧ aig.Hashed ∧
        ∀ id, aig.isDead id = false → aig.FanoutsAgree id := by
  constructor
  · intro inOrder
    have gates : ∀ gate fanins, aig.gateFanins? gate = some fanins →
        aig.GateInOrder gate fanins := by
      intro gate fanins stored
      obtain ⟨name, present⟩ := gateFanins?_eq_some_iff.mp stored
      exact (inOrder gate _ present).gate fanins rfl
    refine ⟨{ position := fun id node stored => (inOrder id node stored).placed
              reserved := fun node stored => (inOrder 0 node stored).reserved rfl },
      fun gate fanins stored => ⟨(gates gate fanins stored).normal,
        (gates gate fanins stored).first.1, (gates gate fanins stored).second.1⟩,
      fun gate fanins stored => (gates gate fanins stored).hashed, ?_⟩
    intro id live
    obtain ⟨node, stored⟩ := isDead_eq_false_iff.mp live
    refine { mem_iff := fun gate => ⟨(inOrder id node stored).reads gate, ?_⟩
             nodup := (inOrder id node stored).nodup }
    rintro ⟨fanins, isGate, rfl | rfl⟩
    · exact (gates gate fanins isGate).first.2
    · exact (gates gate fanins isGate).second.2
  · rintro ⟨placed, operands, hashed, fanouts⟩ position node stored
    have agree := fanouts position (isDead_eq_false_iff.mpr ⟨node, stored⟩)
    refine { placed := placed.position position node stored
             reserved := ?_, gate := ?_, nodup := agree.nodup
             reads := fun fanout member => (agree.mem_iff fanout).mp member }
    · rintro rfl
      exact placed.reserved node stored
    · intro fanins isGate
      have present : aig.gateFanins? position = some fanins := by
        rw [gateFanins?, stored]
        exact isGate
      obtain ⟨normal, first, second⟩ := operands position fanins present
      have known : ∀ id, aig.isDead id = false → aig.GateReads position id →
          position ∈ aig.fanouts id :=
        fun id live reads => ((fanouts id live).mem_iff position).mpr reads
      exact { normal := normal
              hashed := hashed position fanins present
              first := ⟨first, known _ first ⟨fanins, present, .inl rfl⟩⟩
              second := ⟨second, known _ second ⟨fanins, present, .inr rfl⟩⟩ }

theorem OperandsInOrder.sort_cases (operands : aig.OperandsInOrder) :
    (∃ order, topologicalSort aig aig.liveNodes = .ok order) ∨
      ∃ id, Network.OnCycle aig id ∧
        topologicalSort aig aig.liveNodes = .error (.fault (.cycle id)) := by
  have closed : Network.Closed aig :=
    fun id child reads => lt_size_of_live (operands.live_of_reads (reads_iff.mp reads))
  have inside : ∀ root ∈ aig.liveNodes, root < Network.size aig :=
    fun root member => List.mem_range.mp (List.mem_filter.mp member).1
  rcases topologicalSort_ok_or_cycle closed inside with sorted | ⟨id, _, cycle, failed⟩
  · exact .inl sorted
  · exact .inr ⟨id, cycle, failed⟩

theorem acyclic_of_sorted {order : List Nat}
    (sorted : topologicalSort aig aig.liveNodes = .ok order) : aig.Acyclic := by
  obtain ⟨ordered, members⟩ := ordered_of_topologicalSort sorted
  intro id cycle
  obtain ⟨child, reads, _⟩ := Relation.TransGen.head'_iff.mp cycle
  obtain ⟨fanins, stored, _⟩ := reads_iff.mp reads
  have live : id ∈ aig.liveNodes := by
    simp [liveNodes, lt_size_of_gateFanins? stored, isDead_of_gateFanins? stored]
  have listed : id ∈ order.reverse :=
    List.mem_reverse.mpr ((members id).mpr ⟨id, live, .refl⟩)
  exact ordered.not_onCycle listed cycle

theorem OperandsInOrder.exists_sorted_iff (operands : aig.OperandsInOrder) :
    (∃ order, topologicalSort aig aig.liveNodes = .ok order) ↔ aig.Acyclic := by
  constructor
  · rintro ⟨order, sorted⟩
    exact acyclic_of_sorted sorted
  · intro acyclic
    rcases operands.sort_cases with sorted | ⟨id, cycle, _⟩
    · exact sorted
    · exact absurd cycle (acyclic id)

theorem inputsStored_iff (placed : aig.Placed) :
    (∀ id ∈ aig.inputs, (aig.node? id).any Node.isInput = true) ↔ aig.InputsStored := by
  refine forall₂_congr fun id member => ?_
  cases stored : aig.node? id with
  | none => simp
  | some node =>
      have own := placed.position id node stored
      cases node with
      | constant => simp [Node.isInput]
      | input name => simpa [Node.isInput] using show name = id from own
      | gate name fanins => simp [Node.isInput]

/-- A well-formed store passes its check. -/
theorem WellFormed.checkIntegrity (wellFormed : aig.WellFormed) :
    aig.checkIntegrity = .ok () := by
  have operands := wellFormed.toReferences.operandsInOrder
  exact checkIntegrity_eq_ok_iff.mpr
    ⟨nodesInOrder_iff.mpr
      ⟨wellFormed.toPlaced, operands, wellFormed.hashed, wellFormed.fanouts⟩,
    (inputsStored_iff wellFormed.toPlaced).mpr wellFormed.inputs, wellFormed.outputs_live,
    fun id _ => wellFormed.refs id, wellFormed.table_sound,
    operands.exists_sorted_iff.mpr wellFormed.acyclic⟩

theorem hashed_of_checkIntegrity (checked : aig.checkIntegrity = .ok ()) : aig.Hashed :=
  (nodesInOrder_iff.mp (checkIntegrity_eq_ok_iff.mp checked).1).2.2.1

theorem acyclic_of_checkIntegrity (checked : aig.checkIntegrity = .ok ()) : aig.Acyclic := by
  obtain ⟨_, _, _, _, _, order, sorted⟩ := checkIntegrity_eq_ok_iff.mp checked
  exact acyclic_of_sorted sorted

end Aig

end AndInverter
