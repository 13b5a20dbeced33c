import AndInverter.Proofs.Aig.Checking
import AndInverter.Proofs.Aig.Sessions
import AndInverter.Proofs.Simulation.Lanes

/-!
# Words of a simulation

The patterns assign values to the inputs in each of 64 lanes, and simulation
gives each output one word.  Its lanes are the values that evaluation gives the
output, lane by lane.
-/

namespace AndInverter

namespace Aig

/-- In each lane a word has the one value that an edge has where the inputs have
the bits of the patterns in that lane. -/
def HoldsLanes (aig : Aig) (patterns : List (BitVec 64)) (word : BitVec 64) (edge : Edge) :
    Prop :=
  ∀ lane, lane < 64 → ∀ value,
    aig.EdgeEvaluates (laneAssignment patterns lane) edge value ↔ value = word.getLsbD lane

variable {aig : Aig} {patterns words : List (BitVec 64)}

theorem forall₂_holdsLanes (references : aig.References) (ports : aig.Ports)
    (acyclic : aig.Acyclic)
    (lanes : ∀ lane valuation, lane < 64 → aig.Satisfies valuation →
      aig.Assigns (laneAssignment patterns lane) valuation →
      words.map (·.getLsbD lane) = aig.outputs.toList.map (·.value valuation)) :
    List.Forall₂ (aig.HoldsLanes patterns) words aig.outputs.toList := by
  have extended := fun lane => exists_valuation references ports acyclic
    (laneAssignment patterns lane)
  refine List.forall₂_iff_get.mpr ⟨?_, ?_⟩
  · obtain ⟨valuation, satisfies, assigns⟩ := extended 0
    have same := congrArg List.length (lanes 0 valuation (by decide) satisfies assigns)
    rwa [List.length_map, List.length_map] at same
  · intro index inWords inOutputs lane inside value
    obtain ⟨valuation, satisfies, assigns⟩ := extended lane
    have listed := List.get_mem aig.outputs.toList ⟨index, inOutputs⟩
    have live := references.outputs_live _ (Array.mem_toList_iff.mp listed)
    have here := List.getElem_of_eq (lanes lane valuation inside satisfies assigns)
      ((List.length_map ..).symm ▸ inWords)
    rw [List.getElem_map, List.getElem_map] at here
    rw [edgeEvaluates_iff references ports acyclic satisfies assigns live, List.get_eq_getElem,
      List.get_eq_getElem, here]
    exact eq_comm

/-- Simulation of 64 assignments at once is evaluation in every lane: with one
pattern for each input it succeeds with one word for each output, and with any
other number of patterns it is refused. -/
theorem simulate_lanewise {aig : Aig} (reachable : aig.Reachable) (acyclic : aig.Acyclic)
    (patterns : List (BitVec 64)) :
    (patterns.length = aig.inputs.size → ∃ words, aig.simulate patterns = .ok words ∧
      List.Forall₂ (aig.HoldsLanes patterns) words aig.outputs.toList) ∧
    (patterns.length ≠ aig.inputs.size → aig.simulate patterns =
      .error (.error (.inputsMismatch patterns.length aig.inputs.size))) := by
  have references := reachable.bookkeeping.toReferences
  constructor
  · intro matching
    obtain ⟨words, computed, lanes⟩ :=
      exists_simulate references reachable.ports acyclic matching
    exact ⟨words, computed, forall₂_holdsLanes references reachable.ports acyclic lanes⟩
  · intro mismatch
    rw [simulate, if_neg mismatch]

/-- Gate 3 is read by gate 4 and by outputs of both polarities, and one output is
constant: four assignments of two inputs in the lowest lanes. -/
theorem simulate_lanewise_shared : ∃ aig : Aig, aig.Reachable ∧ aig.Acyclic ∧
    aig.inputs.size = 2 ∧
    aig.outputs.toList = [(Edge.plain 4).not, .plain 3, (Edge.plain 0).not, (Edge.plain 3).not] ∧
    aig.simulate [0xc, 0xa] = .ok [~~~0x8, 0x4, ~~~0x0, ~~~0x4] ∧
    List.Forall₂ (aig.HoldsLanes [0xc, 0xa]) [~~~0x8, 0x4, ~~~0x0, ~~~0x4] aig.outputs.toList ∧
    aig.simulate [0xc] = .error (.error (.inputsMismatch 1 2)) := by
  have checked : (do
      let ended ← Aig.empty.session [.addInput, .addInput,
        .createAnd (.plain 1) (Edge.plain 2).not, .createAnd (.plain 1) (Edge.plain 3).not,
        .addOutput (Edge.plain 4).not, .addOutput (.plain 3), .addOutput (Edge.plain 0).not,
        .addOutput (Edge.plain 3).not]
      ended.1.checkIntegrity
      let words ← ended.1.simulate [0xc, 0xa]
      return decide (ended.1.inputs.size = 2 ∧ ended.1.outputs.toList =
        [(Edge.plain 4).not, .plain 3, (Edge.plain 0).not, (Edge.plain 3).not] ∧
        words = [~~~0x8, 0x4, ~~~0x0, ~~~0x4])) = .ok true := by
    decide +kernel
  simp only [bind_eq_ok, pure_eq_ok, decide_eq_true_eq] at checked
  obtain ⟨⟨aig, _⟩, ended, _, intact, words, simulated, inputs, outputs, rfl⟩ := checked
  have reachable : aig.Reachable := evolves_of_session ended
  have acyclic := acyclic_of_checkIntegrity intact
  obtain ⟨matching, _⟩ := simulate_lanewise reachable acyclic [0xc, 0xa]
  obtain ⟨_, mismatch⟩ := simulate_lanewise reachable acyclic [0xc]
  obtain ⟨found, computed, lanes⟩ := matching inputs.symm
  cases simulated.symm.trans computed
  rw [inputs] at mismatch
  exact ⟨aig, reachable, acyclic, inputs, outputs, computed, lanes, mismatch (by decide)⟩

end Aig

end AndInverter
