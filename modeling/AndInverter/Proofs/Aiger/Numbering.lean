import AndInverter.Aiger.Numbering
import AndInverter.Proofs.Aig.Intact
import AndInverter.Proofs.Aig.Isomorphism

/-!
# Numberings

The inputs have the first numbers and the gates below the outputs the next
ones, each a larger number than its fanins.
-/

namespace AndInverter

namespace Aiger.Numbering

private theorem size_assign (numbers : Array Nat) (next : Nat) (ids : List Nat) :
    (assign numbers next ids).size = numbers.size := by
  induction ids generalizing numbers next with
  | nil => rfl
  | cons id ids induction => rw [assign, induction, Array.size_setIfInBounds]

private theorem getD_assign_of_not_mem {numbers : Array Nat} {next : Nat} {ids : List Nat}
    {other : Nat} (unlisted : other ∉ ids) :
    (assign numbers next ids).getD other 0 = numbers.getD other 0 := by
  induction ids generalizing numbers next with
  | nil => rfl
  | cons id ids induction =>
      rw [List.mem_cons, not_or] at unlisted
      obtain ⟨different, unlisted⟩ := unlisted
      rw [assign, induction unlisted]
      simp only [Array.getD_eq_getD_getElem?, Array.getElem?_setIfInBounds,
        if_neg (Ne.symm different)]

private theorem map_assign {numbers : Array Nat} {next : Nat} {ids : List Nat} (nodup : ids.Nodup)
    (inside : ∀ id ∈ ids, id < numbers.size) :
    ids.map (fun id => (assign numbers next ids).getD id 0) = List.range' next ids.length := by
  induction ids generalizing numbers next with
  | nil => rfl
  | cons id ids induction =>
      rw [List.nodup_cons] at nodup
      rw [List.forall_mem_cons] at inside
      obtain ⟨unlisted, nodup⟩ := nodup
      have others : ∀ other ∈ ids, other < (numbers.setIfInBounds id next).size := by
        rw [Array.size_setIfInBounds]
        exact inside.2
      rw [List.map_cons, assign, getD_assign_of_not_mem unlisted, induction nodup others,
        List.length_cons, List.range'_succ]
      simp [Array.getD_eq_getD_getElem?, inside.1]

private theorem map_assign_assign {numbers : Array Nat} {next later : Nat} {ids others : List Nat}
    (nodup : ids.Nodup) (inside : ∀ id ∈ ids, id < numbers.size)
    (disjoint : ∀ id ∈ ids, id ∉ others) :
    ids.map (fun id => (assign (assign numbers next ids) later others).getD id 0) =
      List.range' next ids.length := by
  rw [← map_assign nodup inside]
  exact List.map_congr_left fun id member => getD_assign_of_not_mem (disjoint id member)

private theorem lt_of_consecutive {number : Nat → Nat} {earlier later : List Nat}
    {start length id : Nat}
    (consecutive : (earlier ++ id :: later).map number = List.range' start length) :
    ∀ other ∈ earlier, number other < number id := by
  have sorted : ((earlier ++ id :: later).map number).Pairwise (· < ·) := by
    rw [consecutive]
    exact List.pairwise_lt_range'
  rw [List.map_append, List.map_cons, List.pairwise_append] at sorted
  obtain ⟨_, _, less⟩ := sorted
  exact fun other member =>
    less (number other) (List.mem_map_of_mem member) (number id) List.mem_cons_self

private theorem number_of_consecutive {number : Nat → Nat} {earlier later : List Nat}
    {start length id : Nat}
    (consecutive : (earlier ++ id :: later).map number = List.range' start length) :
    number id = start + earlier.length := by
  have lengths := congrArg List.length consecutive
  simp only [List.length_map, List.length_append, List.length_cons, List.length_range'] at lengths
  have inside : earlier.length < length := by omega
  have here := congrArg (·[earlier.length]?) consecutive
  simpa [List.getElem?_append_right, List.getElem?_range', inside] using here

/-- The inputs and then the gates below the outputs have consecutive numbers,
fanins first. -/
structure Covers (numbering : Numbering) (aig : Aig) : Prop where
  constant : numbering.number 0 = 0
  inputs : aig.inputs.toList.map numbering.number = List.range' 1 aig.inputs.size
  gates : numbering.gates.map numbering.number =
    List.range' (aig.inputs.size + 1) numbering.gates.length
  mem_gates : ∀ id, id ∈ numbering.gates ↔ aig.BelowOutputs id ∧ aig.isGate id = true
  descends : ∀ gate ∈ numbering.gates, ∀ id, aig.GateReads gate id →
    numbering.number id < numbering.number gate

def nodes (numbering : Numbering) (aig : Aig) : List Nat :=
  0 :: (aig.inputs.toList ++ numbering.gates)

variable {numbering : Numbering} {aig : Aig}

theorem mem_nodes {id : Nat} :
    id ∈ numbering.nodes aig ↔ id = 0 ∨ id ∈ aig.inputs ∨ id ∈ numbering.gates := by
  rw [nodes, List.mem_cons, List.mem_append, Array.mem_toList_iff]

theorem length_nodes : (numbering.nodes aig).length =
    aig.inputs.size + 1 + numbering.gates.length := by
  rw [nodes, List.length_cons, List.length_append, Array.length_toList]
  omega

theorem literal_eq (edge : Edge) :
    numbering.literal edge = (edge.rename numbering.number).literal :=
  rfl

theorem mem_of_parts {earlier later : List Nat} {gate : Nat}
    (parts : numbering.gates = earlier ++ gate :: later) : gate ∈ numbering.gates := by
  rw [parts]
  exact List.mem_append_right _ List.mem_cons_self

theorem mem_of_earlier {earlier later : List Nat} {gate : Nat}
    (parts : numbering.gates = earlier ++ gate :: later) {other : Nat}
    (member : other ∈ earlier) : other ∈ numbering.gates := by
  rw [parts]
  exact List.mem_append_left _ member

namespace Covers

theorem map_nodes (covers : numbering.Covers aig) :
    (numbering.nodes aig).map numbering.number = List.range' 0 (numbering.nodes aig).length := by
  rw [length_nodes, nodes, List.map_cons, List.map_append, covers.constant, covers.inputs,
    covers.gates, Nat.add_comm aig.inputs.size 1, Nat.add_assoc, ← List.range'_append_1,
    ← List.range'_append_1]
  rfl

theorem nodup_nodes (covers : numbering.Covers aig) : (numbering.nodes aig).Nodup := by
  apply List.Nodup.of_map numbering.number
  rw [covers.map_nodes]
  exact List.nodup_range'

theorem injective (covers : numbering.Covers aig) {first second : Nat}
    (firstListed : first ∈ numbering.nodes aig) (secondListed : second ∈ numbering.nodes aig)
    (same : numbering.number first = numbering.number second) : first = second := by
  have nodup : ((numbering.nodes aig).map numbering.number).Nodup := by
    rw [covers.map_nodes]
    exact List.nodup_range'
  exact List.inj_on_of_nodup_map nodup firstListed secondListed same

theorem number_lt (covers : numbering.Covers aig) {id : Nat} (listed : id ∈ numbering.nodes aig) :
    numbering.number id < (numbering.nodes aig).length := by
  have numbered := List.mem_map_of_mem (f := numbering.number) listed
  rw [covers.map_nodes] at numbered
  have small := (List.mem_range'_1.mp numbered).2
  omega

theorem length_nodes_le (covers : numbering.Covers aig) (ports : aig.Ports) :
    (numbering.nodes aig).length ≤ aig.size := by
  show (numbering.nodes aig).length ≤ Network.size aig
  apply Listing.length_le_size_of_nodup covers.nodup_nodes
  intro id listed
  rcases mem_nodes.mp listed with rfl | input | gate
  · exact Aig.lt_size_of_node? ports.constant
  · exact Aig.lt_size_of_node? (ports.inputs id input)
  · obtain ⟨fanins, stored⟩ := Aig.isGate_iff.mp ((covers.mem_gates id).mp gate).2
    exact Aig.lt_size_of_gateFanins? stored

theorem mem_nodes_of_inCone (covers : numbering.Covers aig) (intact : aig.Intact) {id : Nat}
    (inCone : aig.InCone id) : id ∈ numbering.nodes aig := by
  rw [mem_nodes, covers.mem_gates]
  rcases inCone with zero | input | below
  · exact .inl zero
  · exact .inr (.inl input)
  · have live := below.live intact.bookkeeping.toReferences
    rcases intact.ports.live_cases live with zero | input | gate
    · exact .inl zero
    · exact .inr (.inl input)
    · exact .inr (.inr ⟨below, gate⟩)

theorem mem_nodes_of_below (covers : numbering.Covers aig) (intact : aig.Intact) {id : Nat}
    (below : aig.BelowOutputs id) : id ∈ numbering.nodes aig :=
  covers.mem_nodes_of_inCone intact (.inr (.inr below))

theorem rename_injective (covers : numbering.Covers aig) (intact : aig.Intact) {edge other : Edge}
    (below : aig.BelowOutputs edge.node) (otherBelow : aig.BelowOutputs other.node)
    (same : edge.rename numbering.number = other.rename numbering.number) : edge = other := by
  obtain ⟨node, complement⟩ := edge
  obtain ⟨node', complement'⟩ := other
  obtain ⟨numbers, complements⟩ := Edge.mk.inj same
  have nodes := covers.injective (covers.mem_nodes_of_below intact below)
    (covers.mem_nodes_of_below intact otherBelow) numbers
  dsimp only at nodes complements
  rw [nodes, complements]

theorem below_fanins (covers : numbering.Covers aig) {gate : Nat}
    (listed : gate ∈ numbering.gates) {fanins : Fanins}
    (stored : aig.gateFanins? gate = some fanins) :
    ∀ edge ∈ fanins.toList, aig.BelowOutputs edge.node := by
  have below := ((covers.mem_gates gate).mp listed).1
  intro edge member
  rcases List.mem_pair.mp member with rfl | rfl
  · exact below.reads ⟨fanins, stored, .inl rfl⟩
  · exact below.reads ⟨fanins, stored, .inr rfl⟩

theorem number_of_parts (covers : numbering.Covers aig) {earlier later : List Nat}
    {gate : Nat} (parts : numbering.gates = earlier ++ gate :: later) :
    numbering.number gate = aig.inputs.size + 1 + earlier.length := by
  have consecutive := covers.gates
  rw [parts] at consecutive
  exact number_of_consecutive consecutive

theorem not_mem_earlier (covers : numbering.Covers aig) {earlier later : List Nat}
    {gate : Nat} (parts : numbering.gates = earlier ++ gate :: later) : gate ∉ earlier := by
  intro member
  have consecutive := covers.gates
  rw [parts] at consecutive
  exact Nat.lt_irrefl _ (lt_of_consecutive consecutive gate member)

end Covers

/-- A gate of the order has a larger number than what it reads, since gates
that come earlier have smaller numbers and inputs smaller ones still. -/
theorem descends_of_ordered (intact : aig.Intact) {order : List Nat}
    (ordered : Network.Ordered aig order.reverse) {number : Nat → Nat}
    (constant : number 0 = 0)
    (inputs : aig.inputs.toList.map number = List.range' 1 aig.inputs.size)
    (gates : (order.filter aig.isGate).map number =
      List.range' (aig.inputs.size + 1) (order.filter aig.isGate).length) :
    ∀ gate ∈ order.filter aig.isGate, ∀ id, aig.GateReads gate id → number id < number gate := by
  intro gate listed id reads
  have large : aig.inputs.size < number gate := by
    have numbered : number gate ∈ (order.filter aig.isGate).map number :=
      List.mem_map_of_mem listed
    rw [gates] at numbered
    exact (List.mem_range'_1.mp numbered).1
  have live := intact.bookkeeping.fanins_live gate id reads
  rcases intact.ports.live_cases live with rfl | input | isGate
  · omega
  · have numbered : number id ∈ aig.inputs.toList.map number :=
      List.mem_map_of_mem (Array.mem_toList_iff.mpr input)
    rw [inputs] at numbered
    have small := (List.mem_range'_1.mp numbered).2
    omega
  · -- A fanin that is a gate comes earlier in the order, so in the list of
    -- gates too.
    obtain ⟨member, gateIsGate⟩ := List.mem_filter.mp listed
    obtain ⟨later, earlier, parts, below⟩ := ordered.exists_split (List.mem_reverse.mpr member)
    have split : order.filter aig.isGate =
        earlier.reverse.filter aig.isGate ++ gate :: later.reverse.filter aig.isGate := by
      rw [← List.reverse_reverse order, parts]
      simp [gateIsGate]
    rw [split] at gates
    apply lt_of_consecutive gates
    rw [List.mem_filter, List.mem_reverse]
    exact ⟨below id (Aig.reads_iff.mpr reads), isGate⟩

theorem covers_ofAig (intact : aig.Intact) (computed : ofAig aig = .ok numbering) :
    numbering.Covers aig := by
  have ports := intact.ports
  obtain ⟨order, sorted, result⟩ := bind_eq_ok.mp computed
  have numbers : numbering.number = fun id =>
      (assign (assign (Array.replicate aig.size 0) 1 aig.inputs.toList)
        (aig.inputs.size + 1) (order.filter aig.isGate)).getD id 0 := by
    cases result
    rfl
  have listing : numbering.gates = order.filter aig.isGate := by
    cases result
    rfl
  obtain ⟨ordered, members⟩ := ordered_of_topologicalSort sorted
  have noGate : ∀ id, aig.isGate id = false → id ∉ order.filter aig.isGate := by
    intro id other listed
    rw [(List.mem_filter.mp listed).2] at other
    cases other
  have constant : numbering.number 0 = 0 := by
    have inside : 0 < aig.size := Aig.lt_size_of_node? ports.constant
    have noInput : 0 ∉ aig.inputs.toList := ports.zero_not_mem_inputs
    simp only [numbers, getD_assign_of_not_mem (noGate 0 ports.isGate_constant),
      getD_assign_of_not_mem noInput]
    simp [Array.getD_eq_getD_getElem?, inside]
  have inputs : aig.inputs.toList.map numbering.number = List.range' 1 aig.inputs.size := by
    rw [numbers]
    refine map_assign_assign ports.nodup (fun id member => ?_) fun id member => noGate id ?_
    · rw [Array.size_replicate]
      exact Aig.lt_size_of_node? (ports.inputs id (Array.mem_toList_iff.mp member))
    · exact ports.isGate_input (Array.mem_toList_iff.mp member)
  have gates : (order.filter aig.isGate).map numbering.number =
      List.range' (aig.inputs.size + 1) (order.filter aig.isGate).length := by
    rw [numbers]
    refine map_assign ((List.nodup_reverse.mp ordered.nodup).filter _) fun id listed => ?_
    rw [size_assign, Array.size_replicate]
    exact ordered.lt_size (List.mem_reverse.mpr (List.mem_filter.mp listed).1)
  refine { constant := constant, inputs := inputs, gates := ?_, mem_gates := ?_, descends := ?_ }
  · rw [listing]
    exact gates
  · intro id
    rw [listing, List.mem_filter, members]
    rfl
  · rw [listing]
    exact descends_of_ordered intact ordered constant inputs gates

/-- Each graph in order has a numbering. -/
theorem exists_ofAig (intact : aig.Intact) : ∃ numbering, ofAig aig = .ok numbering := by
  have references := intact.bookkeeping.toReferences
  have live : ∀ root ∈ Network.roots aig, aig.isDead root = false := by
    intro root isRoot
    obtain ⟨output, listed, rfl⟩ := List.mem_map.mp isRoot
    exact references.outputs_live output (Array.mem_toList_iff.mp listed)
  obtain ⟨order, sorted⟩ := Aig.exists_topologicalSort references intact.acyclic _ live
  exact ⟨_, bind_eq_ok.mpr ⟨order, sorted, rfl⟩⟩

end Aiger.Numbering

end AndInverter
