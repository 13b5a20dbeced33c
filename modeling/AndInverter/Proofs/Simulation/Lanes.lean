import AndInverter.Proofs.Aig.Evaluation
import AndInverter.Proofs.Simulation.TruthTables
import AndInverter.Simulation

/-!
# Lanes of a simulation

Lane by lane, simulation computes the value of a node: the lanes of the
patterns assign values to the inputs, and in each lane the words hold a
valuation that satisfies the store.  All nodes have as many words as an input.
-/

namespace AndInverter

namespace Aig

/-- The values that the patterns assign to the inputs in one lane. -/
def laneAssignment (patterns : List (BitVec 64)) (lane index : Nat) : Bool :=
  (patterns.getD index 0).getLsbD lane

def laneInputs (patterns : List (List (BitVec 64))) (lane index : Nat) : Bool :=
  laneBit (patterns.getD index []) lane

/-- The patterns have words for each input, and for all inputs as many. -/
structure Covers (patterns : List (List (BitVec 64))) (aig : Aig) : Prop where
  inputs : patterns.length = aig.inputs.size
  lengths : ∀ pattern ∈ patterns, pattern.length = wordsPerNode patterns

/-- Words hold the value of a node in each lane. -/
structure HoldsValue (aig : Aig) (patterns : List (List (BitVec 64)))
    (words : List (BitVec 64)) (id : Nat) : Prop where
  length : words.length = wordsPerNode patterns
  value : ∀ lane valuation, lane < 64 * wordsPerNode patterns → aig.Satisfies valuation →
    aig.Assigns (laneInputs patterns lane) valuation → laneBit words lane = valuation id

@[simp] theorem length_edgeWords (values : Array (List (BitVec 64))) (edge : Edge) :
    (edgeWords values edge).length = (values.getD edge.node []).length :=
  List.length_map ..

private theorem laneBit_edgeWords (values : Array (List (BitVec 64))) (edge : Edge) {lane : Nat}
    (inside : lane < 64 * (values.getD edge.node []).length) :
    laneBit (edgeWords values edge) lane =
      (laneBit (values.getD edge.node []) lane ^^ edge.complement) := by
  have place : lane % 64 < 64 := Nat.mod_lt _ (by decide)
  rw [edgeWords, laneBit_map _ inside, BitVec.getLsbD_xor, laneBit]
  congr 1
  cases edge.complement with
  | false => exact BitVec.getLsbD_zero
  | true => exact (BitVec.getLsbD_allOnes ..).trans (decide_eq_true place)

theorem laneBit_edgeWords_of_holdsValue {aig : Aig} {patterns : List (List (BitVec 64))}
    {values : Array (List (BitVec 64))} {edge : Edge}
    (holds : aig.HoldsValue patterns (values.getD edge.node []) edge.node) {lane : Nat}
    {valuation : Nat → Bool} (inside : lane < 64 * wordsPerNode patterns)
    (satisfies : aig.Satisfies valuation)
    (assigns : aig.Assigns (laneInputs patterns lane) valuation) :
    laneBit (edgeWords values edge) lane = edge.value valuation := by
  rw [laneBit_edgeWords values edge (holds.length.symm ▸ inside),
    holds.value lane valuation inside satisfies assigns, Edge.value]

theorem exists_nodeWords {aig : Aig} (ports : aig.Ports) {patterns : List (List (BitVec 64))}
    (covers : Covers patterns aig) {values : Array (List (BitVec 64))} {id : Nat}
    (live : aig.isDead id = false)
    (below : ∀ child, Network.Reads aig id child →
      aig.HoldsValue patterns (values.getD child []) child) :
    ∃ words, aig.nodeWords patterns values id = .ok words ∧
      aig.HoldsValue patterns words id := by
  obtain ⟨node, stored⟩ := isDead_eq_false_iff.mp live
  cases node with
  | constant =>
      refine ⟨List.replicate (wordsPerNode patterns) 0, by simp [nodeWords, stored],
        List.length_replicate, ?_⟩
      intro lane valuation inside satisfies _
      have zero : 0 = id := ports.position id .constant stored
      have within : lane / 64 < wordsPerNode patterns := by omega
      rw [← zero, satisfies.constant, laneBit, List.getD_replicate _ within]
      exact BitVec.getLsbD_zero
  | input name =>
      have registered := ports.registered id name stored
      obtain ⟨index, found⟩ := Option.isSome_iff_exists.mp
        (List.isSome_idxOf?.mpr (Array.mem_toList_iff.mpr registered))
      obtain ⟨inside, same, _⟩ := List.idxOf?_eq_some_iff.mp found
      have position : aig.inputs[index]? = some id := by
        rw [← Array.getElem?_toList, List.getElem?_eq_getElem inside, same]
      have matched : index < patterns.length := by
        rw [covers.inputs, ← Array.length_toList]
        exact inside
      refine ⟨patterns[index], ?_, covers.lengths _ (List.getElem_mem matched), ?_⟩
      · simp [nodeWords, stored, found, matched]
      · intro lane valuation _ _ assigns
        rw [assigns index id position, laneInputs, List.getD_eq_getElem _ _ matched]
  | gate name fanins =>
      have gate := gateFanins?_eq_some_iff.mpr ⟨name, stored⟩
      have first := below fanins.first.node (reads_iff.mpr ⟨fanins, gate, .inl rfl⟩)
      have second := below fanins.second.node (reads_iff.mpr ⟨fanins, gate, .inr rfl⟩)
      refine ⟨List.zipWith (· &&& ·) (edgeWords values fanins.first)
        (edgeWords values fanins.second), by simp [nodeWords, stored], ?_, ?_⟩
      · rw [List.length_zipWith, length_edgeWords, length_edgeWords, first.length,
          second.length, Nat.min_self]
      · intro lane valuation inside satisfies assigns
        rw [laneBit_and, satisfies.gate id fanins gate, Fanins.value,
          laneBit_edgeWords_of_holdsValue first inside satisfies assigns,
          laneBit_edgeWords_of_holdsValue second inside satisfies assigns]

theorem exists_values {aig : Aig} (ports : aig.Ports) {patterns : List (List (BitVec 64))}
    (covers : Covers patterns aig) {nodes : List Nat}
    (ordered : Network.Ordered aig nodes) (live : ∀ id ∈ nodes, aig.isDead id = false) :
    ∃ values : Array (List (BitVec 64)),
      nodes.reverse.foldlM
        (fun values id => do
          let words ← aig.nodeWords patterns values id
          return values.setIfInBounds id words)
        (Array.replicate aig.size []) = .ok values ∧
      values.size = aig.size ∧
      ∀ id ∈ nodes, aig.HoldsValue patterns (values.getD id []) id := by
  induction ordered with
  | nil => exact ⟨Array.replicate aig.size [], rfl, Array.size_replicate, by simp⟩
  | @cons id rest inside fresh below ordered induction =>
      obtain ⟨values, computed, size, held⟩ :=
        induction fun other member => live other (List.mem_cons_of_mem _ member)
      obtain ⟨words, read, value⟩ := exists_nodeWords ports covers
        (live id List.mem_cons_self) fun child reads => held child (below child reads)
      have inBounds : id < values.size := by
        rw [size]
        exact inside
      refine ⟨values.setIfInBounds id words, ?_, ?_, ?_⟩
      · rw [List.reverse_cons, List.foldlM_append, computed]
        exact bind_eq_ok.mpr ⟨values, rfl, by simp [read]⟩
      · rw [Array.size_setIfInBounds, size]
      · intro other member
        rcases List.mem_cons.mp member with rfl | earlier
        · simpa [inBounds] using value
        · have apart : id ≠ other := fun same => fresh (same ▸ earlier)
          have kept : (values.setIfInBounds id words).getD other [] = values.getD other [] := by
            simp [Array.getD_eq_getD_getElem?, Array.getElem?_setIfInBounds_ne apart]
          rw [kept]
          exact held other earlier

theorem exists_simulateBelow_of_sorted {aig : Aig} (references : aig.References)
    (ports : aig.Ports) {patterns : List (List (BitVec 64))} (covers : Covers patterns aig)
    {roots order : List Nat} (live : ∀ root ∈ roots, aig.isDead root = false)
    (sorted : topologicalSort aig roots = .ok order) :
    ∃ values, aig.simulateBelow roots patterns = .ok values ∧
      ∀ root ∈ roots, aig.HoldsValue patterns (values.getD root []) root := by
  obtain ⟨ordered, members⟩ := ordered_of_topologicalSort sorted
  have allLive : ∀ id ∈ order.reverse, aig.isDead id = false := by
    intro id member
    obtain ⟨root, isRoot, reaches⟩ := (members id).mp (List.mem_reverse.mp member)
    cases reaches with
    | refl => exact live _ isRoot
    | tail _ reads => exact references.fanins_live _ id (reads_iff.mp reads)
  obtain ⟨values, computed, _, held⟩ := exists_values ports covers ordered allLive
  rw [List.reverse_reverse] at computed
  refine ⟨values, bind_eq_ok.mpr ⟨order, sorted, computed⟩, ?_⟩
  intro root isRoot
  exact held root (List.mem_reverse.mpr ((members root).mpr ⟨root, isRoot, .refl⟩))

/-- On an acyclic store, simulation from live roots succeeds and gives them
their values. -/
theorem exists_simulateBelow {aig : Aig} (references : aig.References) (ports : aig.Ports)
    (acyclic : aig.Acyclic) {patterns : List (List (BitVec 64))}
    (covers : Covers patterns aig) {roots : List Nat}
    (live : ∀ root ∈ roots, aig.isDead root = false) :
    ∃ values, aig.simulateBelow roots patterns = .ok values ∧
      ∀ root ∈ roots, aig.HoldsValue patterns (values.getD root []) root := by
  obtain ⟨order, sorted⟩ := exists_topologicalSort references acyclic roots live
  exact exists_simulateBelow_of_sorted references ports covers live sorted

/-- Whenever simulation from live roots succeeds, they have their values: it
has met no cycle. -/
theorem holdsValue_of_simulateBelow {aig : Aig} (references : aig.References)
    (ports : aig.Ports) {patterns : List (List (BitVec 64))} (covers : Covers patterns aig)
    {roots : List Nat} (live : ∀ root ∈ roots, aig.isDead root = false)
    {values : Array (List (BitVec 64))} (simulated : aig.simulateBelow roots patterns = .ok values)
    {root : Nat} (isRoot : root ∈ roots) :
    aig.HoldsValue patterns (values.getD root []) root := by
  obtain ⟨order, sorted, _⟩ := bind_eq_ok.mp simulated
  obtain ⟨found, computed, held⟩ :=
    exists_simulateBelow_of_sorted references ports covers live sorted
  cases simulated.symm.trans computed
  exact held root isRoot

theorem outputRoots_live {aig : Aig} (references : aig.References) :
    ∀ root ∈ Network.roots aig, aig.isDead root = false := by
  intro root isRoot
  obtain ⟨output, member, rfl⟩ := List.mem_map.mp isRoot
  exact references.outputs_live output (Array.mem_toList_iff.mp member)

private theorem wordsPerNode_single (patterns : List (BitVec 64)) :
    wordsPerNode (patterns.map ([·])) = 1 := by
  cases patterns <;> rfl

private theorem laneInputs_single (patterns : List (BitVec 64)) {lane : Nat} (inside : lane < 64) :
    laneInputs (patterns.map ([·])) lane = laneAssignment patterns lane := by
  funext index
  rw [laneInputs, laneAssignment, List.getD_eq_getElem?_getD, List.getD_eq_getElem?_getD,
    List.getElem?_map]
  cases patterns[index]? with
  | none => exact (laneBit_of_length_le (Nat.zero_le _)).trans BitVec.getLsbD_zero.symm
  | some word => exact laneBit_head inside

theorem exists_simulate {aig : Aig} (references : aig.References) (ports : aig.Ports)
    (acyclic : aig.Acyclic) {patterns : List (BitVec 64)}
    (matching : patterns.length = aig.inputs.size) :
    ∃ words, aig.simulate patterns = .ok words ∧
      ∀ lane valuation, lane < 64 → aig.Satisfies valuation →
        aig.Assigns (laneAssignment patterns lane) valuation →
        words.map (·.getLsbD lane) = aig.outputs.toList.map (·.value valuation) := by
  have covers : Covers (patterns.map ([·])) aig := by
    refine ⟨(List.length_map ..).trans matching, ?_⟩
    intro pattern member
    obtain ⟨word, _, rfl⟩ := List.mem_map.mp member
    rw [wordsPerNode_single, List.length_singleton]
  obtain ⟨values, computed, held⟩ :=
    exists_simulateBelow references ports acyclic covers (outputRoots_live references)
  refine ⟨aig.outputs.toList.map fun output => (edgeWords values output).headD 0, ?_, ?_⟩
  · rw [simulate, if_pos matching]
    exact bind_eq_ok.mpr ⟨values, computed, rfl⟩
  · intro lane valuation inside satisfies assigns
    rw [List.map_map]
    apply List.map_congr_left
    intro output member
    have holds := held output.node (List.mem_map_of_mem member)
    rw [← laneInputs_single patterns inside] at assigns
    have value := laneBit_edgeWords_of_holdsValue holds
      (by rw [wordsPerNode_single]; exact inside) satisfies assigns
    have length : (edgeWords values output).length = 1 := by
      rw [length_edgeWords, holds.length, wordsPerNode_single]
    obtain ⟨word, single⟩ := List.length_eq_one_iff.mp length
    rw [single, laneBit_head inside] at value
    simpa [single] using value

end Aig

end AndInverter
