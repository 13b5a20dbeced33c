import AndInverter.Proofs.Aig.Bookkeeping
import AndInverter.Proofs.Aig.Ports
import AndInverter.Proofs.Traversal.Topological
import Mathlib.Tactic.Choose

/-!
# Evaluation and valuations

Evaluation gives a node one value at most, and on an acyclic store every live
node has one.  So each assignment of the inputs extends to a valuation that
satisfies the store, and evaluation reads the values off it.
-/

namespace AndInverter

namespace Aig

/-- A valuation gives the inputs the values assigned to their positions. -/
def Assigns (aig : Aig) (assignment valuation : Nat → Bool) : Prop :=
  ∀ index id, aig.inputs[index]? = some id → valuation id = assignment index

/-- No gate reads the constant. -/
theorem node_ne_zero_of_stored {aig : Aig} (references : aig.References) {id : Nat}
    {fanins : Fanins} (stored : aig.gateFanins? id = some fanins) :
    fanins.first.node ≠ 0 ∧ fanins.second.node ≠ 0 := by
  obtain ⟨ordered, _, first⟩ := references.normal id fanins stored
  exact ⟨first, Edge.node_ne_zero_of_lt ordered first⟩

theorem fanins_live_of_stored {aig : Aig} (references : aig.References) {id : Nat}
    {fanins : Fanins} (stored : aig.gateFanins? id = some fanins) :
    aig.isDead fanins.first.node = false ∧ aig.isDead fanins.second.node = false := by
  constructor
  · exact references.fanins_live id _ ((gateReads_iff stored).mpr (.inl rfl))
  · exact references.fanins_live id _ ((gateReads_iff stored).mpr (.inr rfl))

theorem References.closed {aig : Aig} (references : aig.References) : Network.Closed aig := by
  intro id child reads
  exact lt_size_of_live (references.fanins_live id child (reads_iff.mp reads))

theorem References.bounded {aig : Aig} (references : aig.References) : Network.Bounded aig := by
  constructor
  · exact references.closed
  · intro gate member
    obtain ⟨fanins, stored⟩ := isGate_iff.mp (mem_gates.mp member)
    exact lt_size_of_gateFanins? stored
  · intro root isRoot
    obtain ⟨output, member, rfl⟩ := List.mem_map.mp isRoot
    exact lt_size_of_live (references.outputs_live output (Array.mem_toList_iff.mp member))

private theorem node?_isSome_of_gateFanins? {aig : Aig} {id : Nat} {fanins : Fanins} {node : Node}
    (stored : aig.gateFanins? id = some fanins) (present : aig.node? id = some node) :
    ∃ name, node = .gate name fanins := by
  obtain ⟨name, gate⟩ := gateFanins?_eq_some_iff.mp stored
  exact ⟨name, Option.some.inj (present.symm.trans gate)⟩

/-- Evaluation reads values off any valuation that satisfies the store and
extends the assignment. -/
theorem Evaluates.value_eq {aig : Aig} (placed : aig.Placed) {assignment valuation : Nat → Bool}
    (satisfies : aig.Satisfies valuation) (assigns : aig.Assigns assignment valuation)
    {id : Nat} {value : Bool} (evaluates : aig.Evaluates assignment id value) :
    valuation id = value := by
  induction evaluates with
  | @constant id stored =>
      have zero : 0 = id := placed.position id .constant stored
      rw [← zero]
      exact satisfies.constant
  | @input id name index _ registered => exact assigns index id registered
  | @gate id fanins first second stored _ _ leftInduction rightInduction =>
      rw [satisfies.gate id fanins stored, Fanins.value, Edge.value, Edge.value,
        leftInduction, rightInduction]

private theorem index_unique {aig : Aig} (ports : aig.Ports) {first second id : Nat}
    (left : aig.inputs[first]? = some id) (right : aig.inputs[second]? = some id) :
    first = second := by
  rw [← Array.getElem?_toList] at left right
  have inside := (List.getElem?_eq_some_iff.mp left).1
  exact (List.getElem?_inj inside ports.nodup).mp (left.trans right.symm)

theorem Evaluates.unique {aig : Aig} (ports : aig.Ports) {assignment : Nat → Bool} {id : Nat}
    {first second : Bool} (left : aig.Evaluates assignment id first)
    (right : aig.Evaluates assignment id second) : first = second := by
  induction left generalizing second with
  | @constant id stored =>
      cases right with
      | constant _ => rfl
      | input present _ =>
          rw [stored] at present
          cases present
      | gate present _ _ =>
          obtain ⟨name, clash⟩ := node?_isSome_of_gateFanins? present stored
          cases clash
  | @input id name index stored registered =>
      cases right with
      | constant present =>
          rw [stored] at present
          cases present
      | input _ registered' => rw [index_unique ports registered registered']
      | gate present _ _ =>
          obtain ⟨name, clash⟩ := node?_isSome_of_gateFanins? present stored
          cases clash
  | @gate id fanins _ _ stored _ _ leftInduction rightInduction =>
      cases right with
      | constant present =>
          obtain ⟨name, clash⟩ := node?_isSome_of_gateFanins? stored present
          cases clash
      | input present _ =>
          obtain ⟨name, clash⟩ := node?_isSome_of_gateFanins? stored present
          cases clash
      | gate present first' second' =>
          rw [stored] at present
          cases present
          rw [leftInduction first', rightInduction second']

/-- An acyclic store can be sorted from any of its nodes. -/
theorem exists_topologicalSort {aig : Aig} (references : aig.References)
    (acyclic : aig.Acyclic) (roots : List Nat)
    (live : ∀ root ∈ roots, aig.isDead root = false) :
    ∃ order, topologicalSort aig roots = .ok order := by
  have inside : ∀ root ∈ roots, root < Network.size aig :=
    fun root member => lt_size_of_live (live root member)
  rcases topologicalSort_ok_or_cycle references.closed inside with sorted | ⟨id, _, cycle, _⟩
  · exact sorted
  · exact absurd cycle (acyclic id)

/-- On an acyclic store every live node has a value. -/
theorem exists_evaluates {aig : Aig} (references : aig.References) (ports : aig.Ports)
    (acyclic : aig.Acyclic) (assignment : Nat → Bool) {id : Nat}
    (live : aig.isDead id = false) : ∃ value, aig.Evaluates assignment id value := by
  obtain ⟨order, sorted⟩ := exists_topologicalSort references acyclic [id] (by simpa using live)
  obtain ⟨ordered, members⟩ := ordered_of_topologicalSort sorted
  have member : id ∈ order.reverse :=
    List.mem_reverse.mpr ((members id).mpr ⟨id, List.mem_cons_self, .refl⟩)
  refine ordered.rec_below (fun id => aig.isDead id = false →
    ∃ value, aig.Evaluates assignment id value) ?_ id member live
  intro id induction live
  obtain ⟨node, stored⟩ := isDead_eq_false_iff.mp live
  cases node with
  | constant => exact ⟨false, .constant stored⟩
  | input name =>
      obtain ⟨index, registered⟩ :=
        Array.mem_iff_getElem?.mp (ports.registered id name stored)
      exact ⟨assignment index, .input stored registered⟩
  | gate name fanins =>
      have gate := gateFanins?_eq_some_iff.mpr ⟨name, stored⟩
      obtain ⟨firstLive, secondLive⟩ := fanins_live_of_stored references gate
      obtain ⟨first, left⟩ :=
        induction fanins.first.node (reads_iff.mpr ⟨fanins, gate, .inl rfl⟩) firstLive
      obtain ⟨second, right⟩ :=
        induction fanins.second.node (reads_iff.mpr ⟨fanins, gate, .inr rfl⟩) secondLive
      exact ⟨_, .gate gate left right⟩

/-- On an acyclic store every assignment of the inputs extends to a valuation
of all nodes. -/
theorem exists_valuation {aig : Aig} (references : aig.References) (ports : aig.Ports)
    (acyclic : aig.Acyclic) (assignment : Nat → Bool) :
    ∃ valuation, aig.Satisfies valuation ∧ aig.Assigns assignment valuation := by
  have evaluated : ∀ id, ∃ value, aig.isDead id = false → aig.Evaluates assignment id value := by
    intro id
    cases live : aig.isDead id with
    | false =>
        obtain ⟨value, evaluates⟩ := exists_evaluates references ports acyclic assignment live
        exact ⟨value, fun _ => evaluates⟩
    | true => exact ⟨false, nofun⟩
  choose valuation evaluates using evaluated
  refine ⟨valuation, ⟨?_, ?_⟩, ?_⟩
  · have live : aig.isDead 0 = false := isDead_eq_false_iff.mpr ⟨_, ports.constant⟩
    exact (evaluates 0 live).unique ports (.constant ports.constant)
  · intro id fanins stored
    obtain ⟨firstLive, secondLive⟩ := fanins_live_of_stored references stored
    have here := evaluates id (isDead_of_gateFanins? stored)
    exact here.unique ports
      (.gate stored (evaluates _ firstLive) (evaluates _ secondLive))
  · intro index id registered
    have stored := ports.inputs id (Array.mem_iff_getElem?.mpr ⟨index, registered⟩)
    have here := evaluates id (isDead_eq_false_iff.mpr ⟨_, stored⟩)
    exact here.unique ports (.input stored registered)

/-- On an acyclic store, evaluation of a live edge and its value under any
such valuation are one. -/
theorem edgeEvaluates_iff {aig : Aig} (references : aig.References) (ports : aig.Ports)
    (acyclic : aig.Acyclic) {assignment valuation : Nat → Bool}
    (satisfies : aig.Satisfies valuation) (assigns : aig.Assigns assignment valuation)
    {edge : Edge} (live : aig.isDead edge.node = false) (value : Bool) :
    aig.EdgeEvaluates assignment edge value ↔ edge.value valuation = value := by
  constructor
  · intro evaluates
    have read := Evaluates.value_eq ports.toPlaced satisfies assigns evaluates
    rw [Edge.value, read]
    simp
  · rintro rfl
    obtain ⟨value, evaluates⟩ := exists_evaluates references ports acyclic assignment live
    have read := evaluates.value_eq ports.toPlaced satisfies assigns
    rw [EdgeEvaluates, Edge.value, read]
    simpa using evaluates

end Aig

end AndInverter
