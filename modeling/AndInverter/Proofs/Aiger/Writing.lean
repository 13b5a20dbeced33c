import AndInverter.Aiger.Ascii
import AndInverter.Aiger.Binary
import AndInverter.Aiger.Encoding
import AndInverter.Proofs.Aiger.Numbering
import AndInverter.Proofs.Aiger.Formats

/-!
# What is written

A graph is written as the netlist that its numbering makes: the files are
those of this netlist, and the delta to a fanin is never negative.
-/

namespace AndInverter

namespace Aiger

private theorem toUTF8_join (texts : List String) :
    (String.join texts).toUTF8.toList = texts.flatMap fun text => text.toUTF8.toList := by
  induction texts with
  | nil => decide +kernel
  | cons text texts induction =>
      rw [String.join_cons, toUTF8_append, induction, List.flatMap_cons]

namespace Numbering

def netlist (numbering : Numbering) (aig : Aig) : Netlist :=
  { maxVariable := aig.inputs.size + numbering.gates.length
    inputs := aig.inputs.size
    outputs := aig.outputs.toList.map numbering.literal
    gates := (numbering.gateLines aig).map (·.2) }

def Writes (numbering : Numbering) (aig : Aig) (gate : Nat) (definition : Definition) : Prop :=
  ∃ fanins, aig.gateFanins? gate = some fanins ∧
    definition =
      { target := numbering.number gate
        left := max (numbering.literal fanins.first) (numbering.literal fanins.second)
        right := min (numbering.literal fanins.first) (numbering.literal fanins.second) }

variable {numbering : Numbering} {aig : Aig}

private theorem writes_numbered {gates : List Nat} {name : Nat}
    (areGates : ∀ gate ∈ gates, aig.isGate gate = true)
    (consecutive : gates.map numbering.number = List.range' name gates.length) :
    List.Forall₂ (numbering.Writes aig) gates
      (numbered name ((gates.filterMap (numbering.gateLiterals aig)).map (·.2))) := by
  induction gates generalizing name with
  | nil => exact .nil
  | cons gate gates induction =>
      obtain ⟨isGate, others⟩ := List.forall_mem_cons.mp areGates
      obtain ⟨fanins, stored⟩ := Aig.isGate_iff.mp isGate
      rw [List.length_cons, List.range'_succ, List.map_cons] at consecutive
      obtain ⟨own, following⟩ := List.cons.inj consecutive
      have line : numbering.gateLiterals aig gate =
          some (2 * numbering.number gate,
            max (numbering.literal fanins.first) (numbering.literal fanins.second),
            min (numbering.literal fanins.first) (numbering.literal fanins.second)) := by
        rw [gateLiterals, stored]
        rfl
      rw [List.filterMap_cons_some line, List.map_cons, numbered]
      exact .cons ⟨fanins, stored, by rw [own]⟩ (induction others following)

theorem Covers.writes (covers : numbering.Covers aig) :
    List.Forall₂ (numbering.Writes aig) numbering.gates (numbering.netlist aig).definitions :=
  writes_numbered (fun gate listed => ((covers.mem_gates gate).mp listed).2) covers.gates

theorem gateLines_eq {gates : List Nat} {definitions : List Definition}
    (writes : List.Forall₂ (numbering.Writes aig) gates definitions) :
    gates.filterMap (numbering.gateLiterals aig) =
      definitions.map fun definition =>
        (2 * definition.target, definition.left, definition.right) := by
  induction writes with
  | nil => rfl
  | @cons gate definition _ _ own _ induction =>
      obtain ⟨fanins, stored, rfl⟩ := own
      have line : numbering.gateLiterals aig gate =
          some (2 * numbering.number gate,
            max (numbering.literal fanins.first) (numbering.literal fanins.second),
            min (numbering.literal fanins.first) (numbering.literal fanins.second)) := by
        rw [gateLiterals, stored]
        rfl
      rw [List.filterMap_cons_some line, induction, List.map_cons]

theorem exists_writes {gates : List Nat} {definitions : List Definition}
    (writes : List.Forall₂ (numbering.Writes aig) gates definitions) :
    ∀ definition ∈ definitions, ∃ gate ∈ gates, numbering.Writes aig gate definition := by
  induction writes with
  | nil => exact fun _ member => absurd member List.not_mem_nil
  | @cons gate _ _ _ own _ induction =>
      refine List.forall_mem_cons.mpr ⟨⟨gate, List.mem_cons_self, own⟩, ?_⟩
      intro definition member
      obtain ⟨other, listed, written⟩ := induction definition member
      exact ⟨other, List.mem_cons_of_mem _ listed, written⟩

theorem Covers.literal_lt (covers : numbering.Covers aig) {gate : Nat}
    (listed : gate ∈ numbering.gates) {edge : Edge} (reads : aig.GateReads gate edge.node) :
    numbering.literal edge < 2 * numbering.number gate := by
  have below := covers.descends gate listed edge.node reads
  have bit := edge.complement.toNat_lt
  unfold literal
  omega

theorem Covers.descends_netlist (covers : numbering.Covers aig) :
    (numbering.netlist aig).Descends := by
  intro definition member
  obtain ⟨gate, listed, fanins, stored, rfl⟩ := exists_writes covers.writes definition member
  have first := covers.literal_lt listed ⟨fanins, stored, .inl rfl⟩
  have second := covers.literal_lt listed ⟨fanins, stored, .inr rfl⟩
  exact ⟨by simp only [min_le_iff, le_max_iff]; omega, max_lt first second⟩

theorem length_gates (covers : numbering.Covers aig) :
    (numbering.netlist aig).gates.length = numbering.gates.length := by
  rw [covers.writes.length_eq, Netlist.definitions, length_numbered]

theorem headerLine_eq (covers : numbering.Covers aig) (format : String) :
    numbering.headerLine aig format = lineOf ((numbering.netlist aig).headerWords format) := by
  have outputs : (numbering.netlist aig).outputs.length = aig.outputs.size := by
    simp [netlist]
  rw [Netlist.headerWords, outputs, length_gates covers]
  simp only [headerLine, lineOf, String.append_assoc]
  rfl

theorem outputLines_eq :
    (numbering.outputLines aig).toUTF8.toList = linesOf (numbering.netlist aig).outputWords := by
  rw [outputLines, toUTF8_join, linesOf, Netlist.outputWords, netlist]
  simp only [List.flatMap_map]
  rfl

theorem writeAscii_eq (covers : numbering.Covers aig) (numbered : ofAig aig = .ok numbering) :
    ∃ text, writeAscii aig = .ok text ∧
      text.toUTF8.toList = (numbering.netlist aig).asciiFile := by
  refine ⟨_, bind_eq_ok.mpr ⟨numbering, numbered, rfl⟩, ?_⟩
  have words : ∀ definition : Definition,
      lineOf definition.words =
        s!"{2 * definition.target} {definition.left} {definition.right}\n" := by
    intro definition
    simp only [Definition.words, lineOf, String.append_assoc]
    rfl
  have inputs : (String.join ((List.range aig.inputs.size).map fun index =>
      literalLine (2 * (index + 1)))).toUTF8.toList =
        linesOf (numbering.netlist aig).inputWords := by
    rw [toUTF8_join, linesOf, Netlist.inputWords, Netlist.inputNames, List.range'_eq_map_range]
    simp only [List.flatMap_map, Nat.add_comm 1]
    rfl
  have gates : linesOf ((numbering.netlist aig).definitions.map Definition.words) =
      (numbering.netlist aig).definitions.flatMap fun definition =>
        s!"{2 * definition.target} {definition.left} {definition.right}\n".toUTF8.toList := by
    simp only [linesOf, List.flatMap_map, words]
  rw [toUTF8_append, toUTF8_append, toUTF8_append, headerLine_eq covers, outputLines_eq, inputs,
    toUTF8_join, gateLines, gateLines_eq covers.writes, Netlist.asciiFile, gates, List.map_map,
    List.flatMap_map]
  simp [linesOf]

theorem gateBytes_eq {definition : Definition} (descends : definition.Descends) :
    gateBytes (2 * definition.target, definition.left, definition.right) =
      .ok definition.deltas := by
  obtain ⟨sorted, below⟩ := descends
  have first : Word.difference? (2 * definition.target) definition.left =
      some (2 * definition.target - definition.left) := if_pos below.le
  have second : Word.difference? definition.left definition.right =
      some (definition.left - definition.right) := if_pos sorted
  simp only [gateBytes, deltaBytes, first, second]
  rfl

/-- The binary file of a graph is that of its netlist, and no delta is
negative. -/
theorem writeBinary_eq (covers : numbering.Covers aig) (numbered : ofAig aig = .ok numbering) :
    writeBinary aig = .ok (numbering.netlist aig).binaryFile := by
  have gates : (numbering.gateLines aig).mapM gateBytes =
      .ok ((numbering.netlist aig).definitions.map Definition.deltas) := by
    rw [gateLines, gateLines_eq covers.writes, List.mapM_map]
    exact mapM_eq_ok fun definition member =>
      gateBytes_eq (covers.descends_netlist definition member)
  rw [writeBinary, numbered]
  show ((numbering.gateLines aig).mapM gateBytes >>= _) = _
  rw [gates]
  show Except.ok _ = Except.ok _
  rw [toUTF8_append, headerLine_eq covers, outputLines_eq, Netlist.binaryFile,
    ← List.flatMap_def]
  simp [linesOf]

end Numbering

end Aiger

end AndInverter
