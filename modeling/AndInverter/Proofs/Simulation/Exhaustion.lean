import AndInverter.Proofs.Aig.Checking
import AndInverter.Proofs.Aig.Sessions
import AndInverter.Proofs.Simulation.Lanes
import Mathlib.Data.Set.Card

/-!
# Exhaustive simulation

The rows of a table number the assignments of the inputs, so simulating the
tables of the inputs computes every signal under every assignment.  The main
statement, `equivalent_iff_sameFunctions`, says that all tables are exact and
that comparing them decides whether two graphs compute the same functions.
-/

namespace AndInverter

theorem count_eq_ncard {inputs : Nat} (holds : Nat → Prop) [DecidablePred holds] :
    Nat.count holds (2 ^ inputs) =
      {assignment : Fin inputs → Bool | holds (Nat.ofBits assignment)}.ncard := by
  have injective : Function.Injective (Nat.ofBits : (Fin inputs → Bool) → Nat) := by
    intro first second same
    funext index
    have bits := congrArg (·.testBit index) same
    simpa [Nat.testBit_ofBits_lt] using bits
  have image : (↑((Finset.range (2 ^ inputs)).filter holds) : Set Nat) =
      Nat.ofBits '' {assignment : Fin inputs → Bool | holds (Nat.ofBits assignment)} := by
    ext row
    simp only [Finset.coe_filter, Finset.mem_range, Set.mem_ofPred_eq, Set.mem_image]
    constructor
    · rintro ⟨inside, satisfied⟩
      have read : Nat.ofBits (fun index : Fin inputs => row.testBit index) = row := by
        rw [Nat.ofBits_testBit, Nat.mod_eq_of_lt inside]
      exact ⟨fun index => row.testBit index, read.symm ▸ satisfied, read⟩
    · rintro ⟨assignment, satisfied, rfl⟩
      exact ⟨Nat.ofBits_lt_two_pow assignment, satisfied⟩
  rw [Nat.count_eq_card_filter_range, ← Set.ncard_coe_finset, image,
    Set.ncard_image_of_injective _ injective]

namespace Aig

def extendAssignment {inputs : Nat} (assignment : Fin inputs → Bool) (index : Nat) : Bool :=
  if inside : index < inputs then assignment ⟨index, inside⟩ else false

/-- The number of an assignment: its bits are the values of the inputs. -/
private theorem testBit_ofBits_eq {inputs : Nat} (assignment : Fin inputs → Bool) :
    (Nat.ofBits assignment).testBit = extendAssignment assignment := by
  funext index
  exact Nat.testBit_ofBits assignment

theorem Evaluates.congr {aig : Aig} {assignment other : Nat → Bool}
    (same : ∀ index < aig.inputs.size, assignment index = other index) {id : Nat} {value : Bool}
    (evaluates : aig.Evaluates assignment id value) : aig.Evaluates other id value := by
  induction evaluates with
  | constant stored => exact .constant stored
  | @input id name index stored registered =>
      have inside := (Array.getElem?_eq_some_iff.mp registered).1
      rw [same index inside]
      exact .input stored registered
  | gate stored _ _ first second => exact .gate stored first second

theorem exists_row (inputs : Nat) (assignment : Nat → Bool) :
    ∃ row < 2 ^ inputs, ∀ aig : Aig, aig.inputs.size = inputs → ∀ edge value,
      aig.EdgeEvaluates assignment edge value ↔ aig.EdgeEvaluates row.testBit edge value := by
  let restricted : Fin inputs → Bool := fun index => assignment index
  have same : ∀ index < inputs, assignment index = (Nat.ofBits restricted).testBit index :=
    fun index inside => (Nat.testBit_ofBits_lt restricted index inside).symm
  refine ⟨Nat.ofBits restricted, Nat.ofBits_lt_two_pow restricted, ?_⟩
  rintro aig rfl edge value
  constructor
  · exact Evaluates.congr same
  · exact Evaluates.congr fun index inside => (same index inside).symm

/-- A table has one bit for each assignment of the inputs, the value that the
edge has under it; it has no other bits, and it counts the assignments that
satisfy the edge. -/
structure Tabulates (aig : Aig) (table : TruthTable) (edge : Edge) : Prop where
  arity : table.arity = aig.inputs.size
  fits : table.Fits
  rows : ∀ row, row < 2 ^ aig.inputs.size → ∃ value, table.bit row = .ok value ∧
    ∀ other, aig.EdgeEvaluates row.testBit edge other ↔ other = value
  ones : table.countOnes =
    {assignment : Fin aig.inputs.size → Bool |
      aig.EdgeEvaluates (extendAssignment assignment) edge true}.ncard

structure Tabulated (aig : Aig) : Prop where
  outputs : ∃ tables, aig.truthTables = .ok tables ∧
    List.Forall₂ aig.Tabulates tables aig.outputs.toList
  edges : ∀ edge, aig.isDead edge.node = false →
    ∃ table, aig.edgeTable edge = .ok table ∧ aig.Tabulates table edge

theorem Tabulates.evaluates_iff {aig : Aig} {table : TruthTable} {edge : Edge}
    (tabulates : aig.Tabulates table edge) {row : Nat} (inside : row < 2 ^ aig.inputs.size)
    (value : Bool) :
    aig.EdgeEvaluates row.testBit edge value ↔ value = laneBit table.words row := by
  obtain ⟨found, read, unique⟩ := tabulates.rows row inside
  rw [TruthTable.bit_of_fits tabulates.fits (tabulates.arity ▸ inside)] at read
  cases read
  exact unique value

/-- The words that exhaustive simulation gives the inputs. -/
def rowPatterns (inputs : Nat) : List (List (BitVec 64)) :=
  (List.range inputs).map fun index =>
    (List.range (TruthTable.wordCount inputs)).map (TruthTable.projectionWord inputs index)

theorem wordsPerNode_rowPatterns (inputs : Nat) :
    wordsPerNode (rowPatterns inputs) = TruthTable.wordCount inputs := by
  cases inputs with
  | zero => rfl
  | succ inputs => simp [wordsPerNode, rowPatterns, List.range_succ_eq_map]

private theorem laneInputs_rowPatterns {inputs index row : Nat} (bounded : index < inputs)
    (inside : row < 2 ^ inputs) :
    laneInputs (rowPatterns inputs) row index = row.testBit index := by
  rw [laneInputs, List.getD_eq_getElem?_getD]
  simp [rowPatterns, bounded, TruthTable.laneBit_projection index inside]

theorem covers_rowPatterns (aig : Aig) : Covers (rowPatterns aig.inputs.size) aig := by
  refine ⟨by simp [rowPatterns], ?_⟩
  intro pattern member
  obtain ⟨index, _, rfl⟩ := List.mem_map.mp member
  rw [wordsPerNode_rowPatterns, List.length_map, List.length_range]

theorem projections_eq_ok {aig : Aig} (few : aig.inputs.size ≤ maxTableInputs) :
    aig.projections = .ok (rowPatterns aig.inputs.size) := by
  rw [projections, if_pos few]
  apply mapM_eq_ok
  intro index member
  have bounded : index < aig.inputs.size ∧ aig.inputs.size ≤ TruthTable.maxArity :=
    ⟨List.mem_range.mp member, few.trans (by decide)⟩
  rw [TruthTable.projection, if_pos bounded]
  rfl

variable {aig : Aig}

theorem edgeEvaluates_row_iff (references : aig.References) (ports : aig.Ports)
    (acyclic : aig.Acyclic) {values : Array (List (BitVec 64))} {edge : Edge}
    (live : aig.isDead edge.node = false)
    (holds : aig.HoldsValue (rowPatterns aig.inputs.size) (values.getD edge.node []) edge.node)
    {row : Nat} (inside : row < 2 ^ aig.inputs.size) (value : Bool) :
    aig.EdgeEvaluates row.testBit edge value ↔ value = laneBit (edgeWords values edge) row := by
  obtain ⟨valuation, satisfies, assigns⟩ := exists_valuation references ports acyclic row.testBit
  have lane : row < 64 * wordsPerNode (rowPatterns aig.inputs.size) := by
    rw [wordsPerNode_rowPatterns]
    exact inside.trans_le (TruthTable.rows_le_lanes _)
  have placed : aig.Assigns (laneInputs (rowPatterns aig.inputs.size) row) valuation := by
    intro index id registered
    have bounded := (Array.getElem?_eq_some_iff.mp registered).1
    rw [assigns index id registered, laneInputs_rowPatterns bounded inside]
  rw [edgeEvaluates_iff references ports acyclic satisfies assigns live,
    laneBit_edgeWords_of_holdsValue holds lane satisfies placed]
  exact eq_comm

theorem tabulates_ofWords (references : aig.References) (ports : aig.Ports)
    (acyclic : aig.Acyclic) {values : Array (List (BitVec 64))} {edge : Edge}
    (live : aig.isDead edge.node = false)
    (holds : aig.HoldsValue (rowPatterns aig.inputs.size) (values.getD edge.node []) edge.node) :
    aig.Tabulates (TruthTable.ofWords aig.inputs.size (edgeWords values edge)) edge := by
  have length : (edgeWords values edge).length = TruthTable.wordCount aig.inputs.size := by
    rw [length_edgeWords, holds.length, wordsPerNode_rowPatterns]
  have fits := TruthTable.fits_ofWords length
  have value : ∀ row, row < 2 ^ aig.inputs.size → ∀ other,
      aig.EdgeEvaluates row.testBit edge other ↔
        other = laneBit (TruthTable.ofWords aig.inputs.size (edgeWords values edge)).words row := by
    intro row inside other
    rw [TruthTable.laneBit_ofWords length, decide_eq_true inside, Bool.true_and]
    exact edgeEvaluates_row_iff references ports acyclic live holds inside other
  refine ⟨rfl, fits, ?_, ?_⟩
  · intro row inside
    exact ⟨_, TruthTable.bit_of_fits fits inside, value row inside⟩
  · rw [TruthTable.countOnes_of_fits fits, count_eq_ncard]
    congr 1
    ext assignment
    have numbered := value (Nat.ofBits assignment) (Nat.ofBits_lt_two_pow assignment) true
    rw [testBit_ofBits_eq] at numbered
    exact eq_comm.trans numbered.symm

theorem exists_truthTables (references : aig.References) (ports : aig.Ports)
    (acyclic : aig.Acyclic) (few : aig.inputs.size ≤ maxTableInputs) :
    ∃ tables, aig.truthTables = .ok tables ∧
      List.Forall₂ aig.Tabulates tables aig.outputs.toList := by
  obtain ⟨values, computed, held⟩ := exists_simulateBelow references ports acyclic
    (covers_rowPatterns aig) (outputRoots_live references)
  refine ⟨aig.outputs.toList.map fun output =>
    TruthTable.ofWords aig.inputs.size (edgeWords values output), ?_, ?_⟩
  · exact bind_eq_ok.mpr ⟨_, projections_eq_ok few, bind_eq_ok.mpr ⟨values, computed, rfl⟩⟩
  · rw [List.forall₂_map_left_iff, List.forall₂_same]
    intro output member
    have live := references.outputs_live output (Array.mem_toList_iff.mp member)
    exact tabulates_ofWords references ports acyclic live
      (held output.node (List.mem_map_of_mem member))

theorem exists_edgeTable (references : aig.References) (ports : aig.Ports)
    (acyclic : aig.Acyclic) (few : aig.inputs.size ≤ maxTableInputs) {edge : Edge}
    (live : aig.isDead edge.node = false) :
    ∃ table, aig.edgeTable edge = .ok table ∧ aig.Tabulates table edge := by
  have roots : ∀ root ∈ [edge.node], aig.isDead root = false := by simpa using live
  obtain ⟨values, computed, held⟩ := exists_simulateBelow references ports acyclic
    (covers_rowPatterns aig) roots
  have holds := held edge.node List.mem_cons_self
  -- The constant has words like any other node, so they need no replacement.
  have visited : ¬ (edge.node = 0 ∧ values.getD 0 [] = []) := by
    rintro ⟨constant, missing⟩
    have length := holds.length
    rw [constant, missing, wordsPerNode_rowPatterns] at length
    have rows := TruthTable.rows_le_lanes aig.inputs.size
    rw [← length] at rows
    exact absurd rows (Nat.not_le.mpr (Nat.two_pow_pos _))
  refine ⟨TruthTable.ofWords aig.inputs.size (edgeWords values edge), ?_,
    tabulates_ofWords references ports acyclic live holds⟩
  have checked : aig.checkEdge edge = .ok () := by simp [checkEdge, live]
  refine bind_eq_ok.mpr ⟨(), checked, bind_eq_ok.mpr ⟨_, projections_eq_ok few,
    bind_eq_ok.mpr ⟨values, computed, ?_⟩⟩⟩
  rw [if_neg visited]
  rfl

theorem tabulated (references : aig.References) (ports : aig.Ports) (acyclic : aig.Acyclic)
    (few : aig.inputs.size ≤ maxTableInputs) : aig.Tabulated :=
  { outputs := exists_truthTables references ports acyclic few
    edges := fun _ live => exists_edgeTable references ports acyclic few live }

variable {left right : Aig}

/-- Two edges have the same table if they have the same value under every
assignment. -/
theorem Tabulates.eq_iff (inputs : left.inputs.size = right.inputs.size)
    {table table' : TruthTable} {edge edge' : Edge} (tabulates : left.Tabulates table edge)
    (tabulates' : right.Tabulates table' edge') :
    table = table' ↔ ∀ assignment value,
      left.EdgeEvaluates assignment edge value ↔
        right.EdgeEvaluates assignment edge' value := by
  constructor
  · rintro rfl assignment value
    obtain ⟨row, inside, agrees⟩ := exists_row right.inputs.size assignment
    rw [agrees left inputs, agrees right rfl, tabulates.evaluates_iff (inputs ▸ inside),
      tabulates'.evaluates_iff inside]
  · intro same
    apply TruthTable.ext_of_fits tabulates.fits tabulates'.fits
    · rw [tabulates.arity, tabulates'.arity, inputs]
    · intro row inside
      rw [tabulates.arity] at inside
      have value := (tabulates.evaluates_iff inside _).mpr rfl
      exact (tabulates'.evaluates_iff (inputs ▸ inside) _).mp ((same _ _).mp value)

theorem exists_table {tables : List TruthTable}
    (exact : List.Forall₂ aig.Tabulates tables aig.outputs.toList) {index : Nat} {output : Edge}
    (present : aig.outputs[index]? = some output) :
    ∃ table, tables[index]? = some table ∧ aig.Tabulates table output := by
  rw [← Array.getElem?_toList] at present
  obtain ⟨inside, rfl⟩ := List.getElem?_eq_some_iff.mp present
  have within : index < tables.length := exact.length_eq ▸ inside
  exact ⟨tables[index], List.getElem?_eq_getElem within, exact.get within inside⟩

/-- The outputs have the same tables if they agree by position under every
assignment. -/
theorem tables_eq_iff (inputs : left.inputs.size = right.inputs.size)
    (outputs : left.outputs.size = right.outputs.size) {tables tables' : List TruthTable}
    (exact : List.Forall₂ left.Tabulates tables left.outputs.toList)
    (exact' : List.Forall₂ right.Tabulates tables' right.outputs.toList) :
    tables = tables' ↔ left.SameFunctions right := by
  constructor
  · rintro rfl
    refine ⟨inputs, outputs, ?_⟩
    intro assignment index output output' present present'
    obtain ⟨table, listed, tabulates⟩ := exists_table exact present
    obtain ⟨table', listed', tabulates'⟩ := exists_table exact' present'
    cases listed.symm.trans listed'
    exact (tabulates.eq_iff inputs tabulates').mp rfl assignment
  · intro same
    have length : tables.length = tables'.length := by
      rw [exact.length_eq, exact'.length_eq, Array.length_toList, Array.length_toList, outputs]
    apply List.ext_getElem length
    intro index inside inside'
    have within : index < left.outputs.size := by
      rwa [exact.length_eq, Array.length_toList] at inside
    have present : left.outputs[index]? = some left.outputs[index] :=
      Array.getElem?_eq_getElem within
    have present' : right.outputs[index]? = some right.outputs[index] :=
      Array.getElem?_eq_getElem (outputs ▸ within)
    obtain ⟨table, listed, tabulates⟩ := exists_table exact present
    obtain ⟨table', listed', tabulates'⟩ := exists_table exact' present'
    rw [(List.getElem?_eq_some_iff.mp listed).2, (List.getElem?_eq_some_iff.mp listed').2]
    exact (tabulates.eq_iff inputs tabulates').mpr fun assignment =>
      same.values assignment index _ _ present present'

/-- Exhaustive simulation is exact: on graphs that operations have built and
that have no cycles, with as many inputs and outputs as each other, all tables
hold the values of their signals, and comparing the tables of the outputs
succeeds and says whether the graphs compute the same functions. -/
theorem equivalent_iff_sameFunctions {left right : Aig} (leftReachable : left.Reachable)
    (rightReachable : right.Reachable) (leftAcyclic : left.Acyclic)
    (rightAcyclic : right.Acyclic) (few : left.inputs.size ≤ maxTableInputs)
    (inputs : left.inputs.size = right.inputs.size)
    (outputs : left.outputs.size = right.outputs.size) :
    left.Tabulated ∧ right.Tabulated ∧ ∃ same, left.equivalent right = .ok same ∧
      (same = true ↔ left.SameFunctions right) := by
  have leftTabulated := tabulated leftReachable.bookkeeping.toReferences leftReachable.ports
    leftAcyclic few
  have rightTabulated := tabulated rightReachable.bookkeeping.toReferences rightReachable.ports
    rightAcyclic (inputs ▸ few)
  refine ⟨leftTabulated, rightTabulated, ?_⟩
  obtain ⟨tables, built, exact⟩ := leftTabulated.outputs
  obtain ⟨tables', built', exact'⟩ := rightTabulated.outputs
  refine ⟨decide (tables = tables'), ?_, ?_⟩
  · rw [equivalent, if_neg (not_not.mpr inputs), if_neg (not_not.mpr outputs)]
    exact bind_eq_ok.mpr ⟨tables, built, bind_eq_ok.mpr ⟨tables', built', rfl⟩⟩
  · rw [decide_eq_true_iff]
    exact tables_eq_iff inputs outputs exact exact'

/-- The complement of a product of three signals, and a constant. -/
def productSession (first second third : Edge) : List Operation :=
  [.addInput, .addInput, .addInput, .createAnd first second, .createAnd (.plain 4) third,
    .addOutput (Edge.plain 5).not, .addOutput (Edge.plain 0).not]

/-- The order of the factors does not matter, but a complement does. -/
theorem equivalent_iff_sameFunctions_products : ∃ left right other : Aig,
    left.Reachable ∧ right.Reachable ∧ other.Reachable ∧
      left.Acyclic ∧ right.Acyclic ∧ other.Acyclic ∧ left.inputs.size = 3 ∧ left.Tabulated ∧
      left.equivalent right = .ok true ∧ left.SameFunctions right ∧
      left.equivalent other = .ok false ∧ ¬ left.SameFunctions other := by
  have checked : (do
      let left ← Aig.empty.session (productSession (.plain 1) (.plain 2) (.plain 3))
      let right ← Aig.empty.session (productSession (.plain 2) (.plain 3) (.plain 1))
      let other ← Aig.empty.session (productSession (.plain 2) (Edge.plain 3).not (.plain 1))
      left.1.checkIntegrity
      right.1.checkIntegrity
      other.1.checkIntegrity
      let same ← left.1.equivalent right.1
      let confused ← left.1.equivalent other.1
      return same && !confused && left.1.inputs.size == 3 && right.1.inputs.size == 3 &&
        other.1.inputs.size == 3 && left.1.outputs.size == 2 && right.1.outputs.size == 2 &&
        other.1.outputs.size == 2) = .ok true := by
    decide +kernel
  simp only [bind_eq_ok, pure_eq_ok, Bool.and_eq_true, Bool.not_eq_true', beq_iff_eq] at checked
  obtain ⟨⟨left, _⟩, leftEnded, ⟨right, _⟩, rightEnded, ⟨other, _⟩, otherEnded, _, leftIntact, _,
    rightIntact, _, otherIntact, _, same, _, confused, ⟨⟨⟨⟨⟨⟨⟨rfl, rfl⟩, leftInputs⟩,
    rightInputs⟩, otherInputs⟩, leftOutputs⟩, rightOutputs⟩, otherOutputs⟩⟩ := checked
  have leftReachable : left.Reachable := evolves_of_session leftEnded
  have rightReachable : right.Reachable := evolves_of_session rightEnded
  have otherReachable : other.Reachable := evolves_of_session otherEnded
  have leftAcyclic := acyclic_of_checkIntegrity leftIntact
  have rightAcyclic := acyclic_of_checkIntegrity rightIntact
  have otherAcyclic := acyclic_of_checkIntegrity otherIntact
  have few : left.inputs.size ≤ maxTableInputs := leftInputs.trans_le (by decide)
  obtain ⟨tabulated, _, _, verdict, agrees⟩ := equivalent_iff_sameFunctions leftReachable
    rightReachable leftAcyclic rightAcyclic few (leftInputs.trans rightInputs.symm)
    (leftOutputs.trans rightOutputs.symm)
  cases verdict.symm.trans same
  obtain ⟨_, _, _, verdict', agrees'⟩ := equivalent_iff_sameFunctions leftReachable
    otherReachable leftAcyclic otherAcyclic few (leftInputs.trans otherInputs.symm)
    (leftOutputs.trans otherOutputs.symm)
  cases verdict'.symm.trans confused
  exact ⟨left, right, other, leftReachable, rightReachable, otherReachable, leftAcyclic,
    rightAcyclic, otherAcyclic, leftInputs, tabulated, same, agrees.mp rfl, confused,
    fun identical => Bool.false_ne_true (agrees'.mpr identical)⟩

end Aig

end AndInverter
