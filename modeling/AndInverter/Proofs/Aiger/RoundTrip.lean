import AndInverter.Proofs.Aiger.Rebuilding

/-!
# Round trip

What is written of a graph that passes its check is read back, in either
format, as a graph that is isomorphic to the part below the outputs.
-/

namespace AndInverter

namespace Aiger

namespace Numbering

variable {numbering : Numbering} {aig : Aig}

theorem Covers.literal_lt_limit (covers : numbering.Covers aig) (intact : aig.Intact)
    (addressable : aig.Addressable) {edge : Edge} (below : aig.BelowOutputs edge.node) :
    numbering.literal edge < Word.limit := by
  have small := covers.number_lt (covers.mem_nodes_of_below intact below)
  have length := covers.length_nodes_le intact.ports
  have literals := addressable.literals
  have bit := edge.complement.toNat_lt
  unfold literal
  omega

theorem Covers.headed_netlist (covers : numbering.Covers aig) (ports : aig.Ports)
    (addressable : aig.Addressable) : (numbering.netlist aig).Headed := by
  have length := covers.length_nodes_le ports
  have literals := addressable.literals
  rw [length_nodes] at length
  refine { enough := ?_, fits := ?_, outputs := ?_ }
  · rw [length_gates covers]
    exact Nat.le_refl _
  · show 2 * (aig.inputs.size + numbering.gates.length + 1) < Word.limit
    omega
  · show (aig.outputs.toList.map numbering.literal).length < Word.limit
    rw [List.length_map, Array.length_toList]
    exact addressable.outputs

/-- A graph with a copy of each gate below the outputs and of no other, and
with the copies of the outputs, is isomorphic to the part below the outputs. -/
theorem Mirrors.coneIsomorphism {builder : Builder}
    (mirrors : numbering.Mirrors aig numbering.gates builder) (covers : numbering.Covers aig)
    (intact : aig.Intact) {copy : Aig} (copyPorts : copy.Ports)
    (nodes : ∀ id, copy.node? id = builder.aig.node? id)
    (inputs : copy.inputs = builder.aig.inputs)
    (outputs : copy.outputs = aig.outputs.map (Edge.rename numbering.number)) :
    aig.ConeIsomorphism copy numbering.number := by
  have ports := intact.ports
  have gates : ∀ id, copy.gateFanins? id = builder.aig.gateFanins? id := by
    intro id
    rw [Aig.gateFanins?, nodes, Aig.gateFanins?]
  have sameInputs : copy.inputs = aig.inputs.map numbering.number := by
    rw [inputs, ← Array.toList_inj, mirrors.inputs, Array.toList_map, covers.inputs]
  refine { constant := covers.constant, inputs := sameInputs, outputs := outputs, gate := ?_
           injective := ?_, surjective := ?_ }
  · intro id fanins below stored
    rw [gates]
    have listed := (covers.mem_gates id).mpr ⟨below, Aig.isGate_iff.mpr ⟨fanins, stored⟩⟩
    exact (mirrors.gates _ _).mpr ⟨id, listed, fanins, stored, rfl, rfl⟩
  · intro first second firstInCone secondInCone
    exact covers.injective (covers.mem_nodes_of_inCone intact firstInCone)
      (covers.mem_nodes_of_inCone intact secondInCone)
  · intro id live
    rcases copyPorts.live_cases live with rfl | input | isGate
    · exact ⟨0, .inl rfl, ports.isGate_constant.trans copyPorts.isGate_constant.symm,
        covers.constant⟩
    · have renamed := input
      rw [sameInputs] at renamed
      obtain ⟨origin, listed, same⟩ := Array.mem_map.mp renamed
      exact ⟨origin, .inr (.inl listed),
        (ports.isGate_input listed).trans (copyPorts.isGate_input input).symm, same⟩
    · obtain ⟨pair, built⟩ := Aig.isGate_iff.mp isGate
      rw [gates] at built
      obtain ⟨origin, listed, _, _, same, _⟩ := (mirrors.gates id pair).mp built
      obtain ⟨below, gate⟩ := (covers.mem_gates origin).mp listed
      exact ⟨origin, .inr (.inr below), gate.trans isGate.symm, same⟩

theorem Mirrors.signal?_outputs {builder : Builder}
    (mirrors : numbering.Mirrors aig numbering.gates builder) (covers : numbering.Covers aig)
    (intact : aig.Intact) :
    (numbering.netlist aig).outputs.map builder.signal? =
      (aig.outputs.toList.map (Edge.rename numbering.number)).map some := by
  rw [netlist, List.map_map, List.map_map]
  refine List.map_congr_left fun output listed => ?_
  have below := Aig.belowOutputs_of_output (Array.mem_toList_iff.mp listed)
  have small := covers.number_lt (covers.mem_nodes_of_below intact below)
  have bit := output.complement.toNat_lt
  apply mirrors.verbatim.signal?_eq_some_iff.mpr
  refine ⟨?_, ?_⟩
  · rw [mirrors.size, ← length_nodes, literal]
    omega
  · rw [literal_eq, Edge.ofLiteral_literal]

theorem exists_copy (covers : numbering.Covers aig) (intact : aig.Intact)
    (headed : (numbering.netlist aig).Headed) :
    ∃ copy, (numbering.netlist aig).build = .ok copy ∧ copy.Ports ∧
      aig.ConeIsomorphism copy numbering.number := by
  obtain ⟨first, last, added, run⟩ := Netlist.exists_builders headed covers.descends_netlist
  have mirrors : numbering.Mirrors aig numbering.gates last :=
    (mirrors_inputs added).builds covers intact rfl covers.writes run
  have started := Builder.sound_start (numbering.netlist aig).header
  have inputs := started.extends_addInputs added
  have gates := inputs.sound.extends_builds run
  have noOutputs : last.aig.outputs = #[] := gates.outputs.trans inputs.outputs
  have found := mirrors.signal?_outputs covers intact
  have finished := gates.sound.finish_eq_ok_iff.mpr ⟨_, found, rfl⟩
  have copyPorts := (gates.sound.intact_appendOutputs found).ports
  refine ⟨_, bind_eq_ok.mpr ⟨first, added, bind_eq_ok.mpr ⟨last, run, finished⟩⟩, copyPorts, ?_⟩
  apply mirrors.coneIsomorphism covers intact copyPorts
  · exact Aig.node?_appendOutputs last.aig _
  · exact Aig.inputs_appendOutputs last.aig _
  · rw [Aig.outputs_appendOutputs, noOutputs, ← Array.toList_inj]
    simp

end Numbering

/-- A reachable graph that passes its check can be written in both formats.
If its literals are words, both files are read back as one graph, which is
isomorphic to the part below the outputs and computes the same functions. -/
theorem roundTrip {aig : Aig} (reachable : aig.Reachable)
    (checked : aig.checkIntegrity = .ok ()) :
    ∃ text bytes, writeAscii aig = .ok text ∧ writeBinary aig = .ok bytes ∧
      (aig.Addressable → ∃ copy image, readAscii text.toUTF8.toList = .ok copy ∧
        readBinary bytes = .ok copy ∧ aig.ConeIsomorphism copy image ∧
        aig.SameFunctions copy) := by
  have intact := reachable.intact checked
  obtain ⟨numbering, computed⟩ := Numbering.exists_ofAig intact
  have covers := Numbering.covers_ofAig intact computed
  obtain ⟨text, written, content⟩ := Numbering.writeAscii_eq covers computed
  refine ⟨text, _, written, Numbering.writeBinary_eq covers computed, fun addressable => ?_⟩
  have headed := covers.headed_netlist intact.ports addressable
  have descends := covers.descends_netlist
  obtain ⟨copy, built, copyPorts, isomorphism⟩ := Numbering.exists_copy covers intact headed
  have small : ∀ literal ∈ (numbering.netlist aig).outputs, literal < Word.limit := by
    intro literal member
    obtain ⟨output, listed, rfl⟩ := List.mem_map.mp member
    have below := Aig.belowOutputs_of_output (Array.mem_toList_iff.mp listed)
    exact covers.literal_lt_limit intact addressable below
  have steps : (do
      let _ ← (numbering.netlist aig).outputWords.mapM (readLiteral .output)
      (numbering.netlist aig).build) = .ok copy := by
    rw [Netlist.readLiteral_outputWords small]
    exact built
  refine ⟨copy, numbering.number, ?_, ?_, isomorphism, isomorphism.sameFunctions
    intact.bookkeeping.toReferences intact.ports intact.acyclic copyPorts⟩
  · rw [content, Netlist.readAscii_asciiFile headed descends, steps]
  · rw [Netlist.readBinary_binaryFile headed descends, steps]

/-- A substitution makes gate 5 read the later gate 6 and empties slot 4; gate
7 is below no output. -/
def renumberingSession : List Operation :=
  [.addInput, .addInput, .addInput,
    .createAnd (.plain 1) (.plain 2), .createAnd (.plain 4) (Edge.plain 3).not,
    .createAnd (.plain 1) (.plain 3), .createAnd (.plain 2) (.plain 6),
    .addOutput (.plain 5), .addOutput (Edge.plain 6).not, .addOutput (.constant true),
    .substitute 10 4 (Edge.plain 6).not]

theorem roundTrip_renumbering : ∃ aig : Aig, aig.Reachable ∧ aig.checkIntegrity = .ok () ∧
    aig.GateReads 5 6 ∧ aig.isDead 4 = true ∧ aig.isGate 7 = true ∧
    ∃ text bytes copy image, writeAscii aig = .ok text ∧ writeBinary aig = .ok bytes ∧
      readAscii text.toUTF8.toList = .ok copy ∧ readBinary bytes = .ok copy ∧
      aig.ConeIsomorphism copy image ∧ aig.SameFunctions copy := by
  have checked : (do
      let ended ← Aig.empty.session renumberingSession
      ended.1.checkIntegrity
      return ended.1.isDead 4 && ended.1.isGate 7 && decide (ended.1.gateFanins? 5 =
        some (Fanins.mk (Edge.plain 3).not (Edge.plain 6).not)) &&
        decide (ended.1.size = 8) && decide (ended.1.outputs.size = 3)) = .ok true := by
    decide +kernel
  obtain ⟨⟨aig, log⟩, ended, rest⟩ := bind_eq_ok.mp checked
  obtain ⟨_, intact, results⟩ := bind_eq_ok.mp rest
  simp only [pure_eq_ok, Bool.and_eq_true, decide_eq_true_eq] at results
  obtain ⟨⟨⟨⟨dead, dangling⟩, stored⟩, size⟩, outputs⟩ := results
  have reachable : aig.Reachable := Aig.evolves_of_session ended
  have addressable : aig.Addressable := by
    refine ⟨?_, ?_⟩
    · rw [size]
      decide
    · rw [outputs]
      decide
  obtain ⟨text, bytes, written, writtenBinary, readBack⟩ := roundTrip reachable intact
  obtain ⟨copy, image, outcome⟩ := readBack addressable
  exact ⟨aig, reachable, intact, ⟨_, stored, .inr rfl⟩, dead, dangling, text, bytes, copy, image,
    written, writtenBinary, outcome⟩

end Aiger

end AndInverter
