import AndInverter.Aiger.Binary
import AndInverter.Proofs.Aiger.Encoding

/-!
# The two formats agree

On the two files of a netlist both readers add the same inputs, build the same
definitions in the same order and add the same outputs.  So they return the
same result, error or graph.
-/

namespace AndInverter

namespace Aiger

/-! ### Consecutive definitions -/

private theorem mem_targets_numbered {name : Nat} {gates : List (Nat × Nat)} {other : Nat} :
    other ∈ (numbered name gates).map (·.target) ↔
      name ≤ other ∧ other < name + gates.length := by
  induction gates generalizing name with
  | nil =>
      simp only [numbered, List.map_nil, List.not_mem_nil, List.length_nil, false_iff]
      omega
  | cons gate gates induction =>
      rw [numbered, List.map_cons, List.mem_cons, induction, List.length_cons]
      show other = name ∨ _ ↔ _
      omega

private theorem numbered_bounds {name : Nat} {gates : List (Nat × Nat)} :
    ∀ definition ∈ numbered name gates,
      name ≤ definition.target ∧ definition.target < name + gates.length :=
  fun _ member => mem_targets_numbered.mp (List.mem_map_of_mem member)

theorem length_numbered (name : Nat) (gates : List (Nat × Nat)) :
    (numbered name gates).length = gates.length := by
  induction gates generalizing name with
  | nil => rfl
  | cons gate gates induction => rw [numbered, List.length_cons, induction, List.length_cons]

theorem orders_numbered {known : List Nat} {name : Nat} {gates : List (Nat × Nat)}
    (smaller : ∀ other, other ∈ known ↔ other < name)
    (descends : ∀ definition ∈ numbered name gates, definition.Descends) :
    Orders known (numbered name gates) := by
  induction gates generalizing known name with
  | nil => exact .nil known
  | cons gate gates induction =>
      obtain ⟨left, right⟩ := gate
      rw [numbered, List.forall_mem_cons] at descends
      obtain ⟨⟨sorted, below⟩, others⟩ := descends
      dsimp only at sorted below
      refine .cons ?_ ?_ ?_ (induction (fun other => ?_) others)
      · rw [smaller]
        exact Nat.lt_irrefl name
      · rw [smaller]
        show left / 2 < name
        omega
      · rw [smaller]
        show right / 2 < name
        omega
      · rw [List.mem_cons, smaller]
        show other = name ∨ other < name ↔ _
        omega

theorem readDefinition_words {definition : Definition} (descends : definition.Descends)
    (fits : 2 * definition.target < Word.limit) :
    readDefinition definition.words = .ok definition := by
  obtain ⟨sorted, below⟩ := descends
  apply readDefinition_eq_ok_iff.mpr
  exact ⟨_, _, _, rfl, spells_toString fits, by omega, spells_toString (by omega),
    spells_toString (by omega)⟩

theorem definitionOf_deltas {definition : Definition} (descends : definition.Descends) :
    definitionOf (2 * definition.target) (2 * definition.target - definition.left)
      (definition.left - definition.right) = .ok definition := by
  obtain ⟨target, left, right⟩ := definition
  obtain ⟨sorted, below⟩ := descends
  dsimp only at sorted below ⊢
  have first : Word.difference? (2 * target) (2 * target - left) = some left := by
    rw [Word.difference?, if_pos (by omega)]
    congr 1
    omega
  have second : Word.difference? left (left - right) = some right := by
    rw [Word.difference?, if_pos (by omega)]
    congr 1
    omega
  simp only [definitionOf, first, second]
  rw [if_neg (by omega), Nat.mul_div_cancel_left target (by decide)]

theorem readGates_deltas {name : Nat} {gates : List (Nat × Nat)} {builder : Builder}
    (descends : ∀ definition ∈ numbered name gates, definition.Descends)
    (fits : 2 * name + 2 * gates.length < Word.limit) :
    readGates gates.length (2 * name) builder ((numbered name gates).flatMap Definition.deltas) =
      (numbered name gates).foldlM Builder.build builder := by
  induction gates generalizing name builder with
  | nil => rfl
  | cons gate gates induction =>
      obtain ⟨left, right⟩ := gate
      rw [numbered, List.forall_mem_cons] at descends
      obtain ⟨own, others⟩ := descends
      rw [List.length_cons] at fits ⊢
      have step : Word.sum (2 * name) 2 = .ok (2 * (name + 1)) := if_pos (by omega)
      -- Both deltas are words, since they are at most the literal of the gate.
      have below : left < 2 * name := own.2
      have firstRead : ∀ rest, decodeDelta (encodeDelta (2 * name - left) ++ rest) =
          .ok (2 * name - left, rest) := decodeDelta_encodeDelta (by omega)
      have secondRead : ∀ rest, decodeDelta (encodeDelta (left - right) ++ rest) =
          .ok (left - right, rest) := decodeDelta_encodeDelta (by omega)
      have defined := definitionOf_deltas own
      dsimp only at defined
      rw [numbered, List.flatMap_cons, Definition.deltas, List.append_assoc, readGates,
        firstRead, List.foldlM_cons]
      show (decodeDelta _ >>= _) = _
      rw [secondRead]
      show (definitionOf _ _ _ >>= _) = _
      rw [defined]
      show (Builder.build _ _ >>= _) = _
      refine bind_congr fun next => ?_
      rw [step]
      exact induction others (by omega)

namespace Netlist

variable {netlist : Netlist}

/-- The steps that both readers make. -/
def build (netlist : Netlist) : Except Failure Aig := do
  let builder ← netlist.inputNames.foldlM Builder.addInput (Builder.start netlist.header)
  let builder ← netlist.definitions.foldlM Builder.build builder
  builder.finish netlist.outputs

private theorem inputNames_bounds :
    ∀ name ∈ netlist.inputNames, name ≠ 0 ∧ name ≤ netlist.inputs := by
  intro name member
  obtain ⟨small, large⟩ := List.mem_range'_1.mp member
  omega

theorem readInput_words (headed : netlist.Headed) :
    netlist.inputWords.mapM readInput = .ok netlist.inputNames := by
  have enough := headed.enough
  have fits := headed.fits
  rw [inputWords, List.mapM_map]
  have read : ∀ name ∈ netlist.inputNames, (readInput ∘ fun name => [toString (2 * name)]) name =
      .ok (id name) := by
    intro name member
    obtain ⟨nonzero, small⟩ := inputNames_bounds name member
    exact readInput_eq_ok_iff.mpr ⟨_, rfl, spells_toString (by omega), nonzero⟩
  rw [mapM_eq_ok read, List.map_id]

theorem eq_outputs_of_readLiteral {literals : List Nat}
    (read : netlist.outputWords.mapM (readLiteral .output) = .ok literals) :
    literals = netlist.outputs := by
  rw [outputWords, List.mapM_map] at read
  have determined : ∀ literal result : Nat,
      (readLiteral .output ∘ fun literal => [toString literal]) literal = .ok result →
        result = id literal := by
    intro literal result own
    obtain ⟨_, same, spells⟩ := readLiteral_eq_ok_iff.mp own
    cases same
    exact (spells_toString_iff.mp spells).1
  rw [eq_map_of_mapM determined read, List.map_id]

theorem readDefinition_words (headed : netlist.Headed) (descends : netlist.Descends) :
    (netlist.definitions.map Definition.words).mapM readDefinition = .ok netlist.definitions := by
  have enough := headed.enough
  have fits := headed.fits
  rw [List.mapM_map]
  have read : ∀ definition ∈ netlist.definitions, (readDefinition ∘ Definition.words) definition =
      .ok (id definition) := by
    intro definition member
    have bounds := numbered_bounds definition member
    exact Aiger.readDefinition_words (descends definition member) (by omega)
  rw [mapM_eq_ok read, List.map_id]

theorem exists_builders (headed : netlist.Headed) (descends : netlist.Descends) :
    ∃ first last, netlist.inputNames.foldlM Builder.addInput (Builder.start netlist.header) =
        .ok first ∧
      netlist.definitions.foldlM Builder.build first = .ok last := by
  have enough := headed.enough
  have started := Builder.sound_start netlist.header
  have knows := Builder.knows_start netlist.header
  have admitted : ∀ name ∈ netlist.inputNames, name ∉ [0] ∧ name ≤ netlist.maxVariable := by
    intro name member
    obtain ⟨nonzero, small⟩ := inputNames_bounds name member
    exact ⟨fun zero => nonzero (List.mem_singleton.mp zero), by omega⟩
  obtain ⟨first, added⟩ :=
    (started.exists_addInputs_iff knows).mpr ⟨List.nodup_range', admitted⟩
  have inputs := started.extends_addInputs added
  have smaller : ∀ other, other ∈ netlist.inputNames ++ [0] ↔ other < netlist.inputs + 1 := by
    intro other
    rw [inputNames, List.mem_append, List.mem_range'_1, List.mem_singleton]
    omega
  have inRange : ∀ definition ∈ netlist.definitions, definition.target ≤ first.maxVariable := by
    intro definition member
    have bounds := numbered_bounds definition member
    rw [inputs.maxVariable]
    show definition.target ≤ netlist.maxVariable
    omega
  obtain ⟨last, run⟩ := (inputs.sound.exists_foldlM_build_iff (inputs.knows knows)).mpr
    ⟨orders_numbered smaller descends, inRange⟩
  exact ⟨first, last, added, run⟩

private theorem plain_singleton {Datum : Type} {literal : Datum → Nat} {data : List Datum} :
    ∀ words ∈ data.map fun datum => [toString (literal datum)], ∀ word ∈ words, Plain word := by
  intro words member word inWords
  obtain ⟨datum, _, rfl⟩ := List.mem_map.mp member
  rw [List.mem_singleton.mp inWords]
  exact plain_toString _

private theorem plain_definitions :
    ∀ words ∈ netlist.definitions.map Definition.words, ∀ word ∈ words, Plain word := by
  intro words member
  obtain ⟨definition, _, rfl⟩ := List.mem_map.mp member
  simp only [Definition.words, List.forall_mem_cons]
  exact ⟨plain_toString _, plain_toString _, plain_toString _,
    fun _ member => absurd member List.not_mem_nil⟩

theorem ofTokens_header (headed : netlist.Headed) :
    Header.ofTokens (netlist.headerWords "aag") = .ok netlist.header :=
  (ofTokens_headerWords_iff (.inl rfl)).mpr ⟨headed, rfl⟩

theorem readLines_inputWords (headed : netlist.Headed) (rest : List UInt8) :
    readLines readInput netlist.inputs (linesOf netlist.inputWords ++ rest) =
      .ok (netlist.inputNames, rest) := by
  have read : readLines readInput netlist.inputWords.length (linesOf netlist.inputWords ++ rest) =
      (do let names ← netlist.inputWords.mapM readInput; return (names, rest)) :=
    readLines_linesOf plain_singleton rest
  rw [readInput_words headed, inputWords, List.length_map, inputNames, List.length_range'] at read
  exact read

theorem readLines_outputWords (rest : List UInt8) :
    readLines (readLiteral .output) netlist.outputs.length (linesOf netlist.outputWords ++ rest) =
      (do
        let literals ← netlist.outputWords.mapM (readLiteral .output)
        return (literals, rest)) := by
  have read : readLines (readLiteral .output) netlist.outputWords.length
      (linesOf netlist.outputWords ++ rest) = _ := readLines_linesOf plain_singleton rest
  rwa [outputWords, List.length_map] at read

theorem readLines_definitions (headed : netlist.Headed) (descends : netlist.Descends) :
    readLines readDefinition netlist.gates.length
      (linesOf (netlist.definitions.map Definition.words)) = .ok (netlist.definitions, []) := by
  have read : readLines readDefinition (netlist.definitions.map Definition.words).length
      (linesOf (netlist.definitions.map Definition.words) ++ []) = _ :=
    readLines_linesOf plain_definitions []
  rw [List.length_map, definitions, length_numbered, ← definitions,
    readDefinition_words headed descends, List.append_nil] at read
  exact read

/-- What both readers make of the files of a netlist, the outputs apart: they
read the outputs, then add the inputs and build the gates. -/
def assemble (netlist : Netlist) : Except Failure (Builder × List Nat) := do
  let _ ← netlist.outputWords.mapM (readLiteral .output)
  let builder ← netlist.inputNames.foldlM Builder.addInput (Builder.start netlist.header)
  let builder ← netlist.definitions.foldlM Builder.build builder
  return (builder, netlist.outputs)

theorem buildAscii_asciiFile (headed : netlist.Headed) (descends : netlist.Descends) :
    buildAscii netlist.asciiFile = netlist.assemble := by
  obtain ⟨first, last, added, run⟩ := exists_builders headed descends
  have inputs : ∀ rest, readInputs netlist.inputs (Builder.start netlist.header)
      (linesOf netlist.inputWords ++ rest) = .ok (first, rest) :=
    fun rest => readInputs_eq_ok_iff.mpr
      ⟨netlist.inputNames, readLines_inputWords headed rest, added⟩
  have built : first.addGates netlist.definitions = .ok last := by
    rw [Builder.addGates, Builder.pass_of_foldlM_build run]
    rfl
  rw [buildAscii, asciiFile, List.append_assoc, List.append_assoc,
    readHeader_headerWords (.inl rfl), ofTokens_header headed]
  show (readInputs netlist.inputs _ _ >>= _) = _
  rw [inputs]
  show (readLines _ netlist.outputs.length _ >>= _) = _
  rw [readLines_outputWords, assemble, added]
  cases read : netlist.outputWords.mapM (readLiteral .output) with
  | error failure => rfl
  | ok literals =>
      rw [eq_outputs_of_readLiteral read]
      show (readLines _ netlist.gates.length _ >>= _) = _
      rw [readLines_definitions headed descends]
      show (first.addGates _ >>= _) = (netlist.definitions.foldlM _ first >>= _)
      rw [built, run]

theorem buildBinary_binaryFile (headed : netlist.Headed) (descends : netlist.Descends) :
    buildBinary netlist.binaryFile = netlist.assemble := by
  obtain ⟨first, last, added, run⟩ := exists_builders headed descends
  have enough := headed.enough
  have fits := headed.fits
  have literal : firstGate netlist.inputs = .ok (2 * (netlist.inputs + 1)) := if_pos (by omega)
  have gates : readGates netlist.gates.length (2 * (netlist.inputs + 1)) first
      (netlist.definitions.flatMap Definition.deltas) = .ok last :=
    (readGates_deltas descends (by omega)).trans run
  rw [buildBinary, binaryFile, List.append_assoc, readHeader_headerWords (.inr rfl),
    ofTokens_header headed]
  show (netlist.inputNames.foldlM Builder.addInput (Builder.start netlist.header) >>= _) = _
  rw [added]
  show (readLines _ netlist.outputs.length _ >>= _) = _
  rw [readLines_outputWords, assemble, added]
  cases read : netlist.outputWords.mapM (readLiteral .output) with
  | error failure => rfl
  | ok literals =>
      rw [eq_outputs_of_readLiteral read]
      show (firstGate netlist.inputs >>= _) = _
      rw [literal]
      show (readGates netlist.gates.length _ _ _ >>= _) =
        (netlist.definitions.foldlM _ first >>= _)
      rw [gates, run]

theorem assemble_finish :
    (do let (builder, outputs) ← netlist.assemble; builder.finish outputs) =
      (do let _ ← netlist.outputWords.mapM (readLiteral .output); netlist.build) := by
  simp only [assemble, build, bind_assoc, pure_bind]

theorem readAscii_asciiFile (headed : netlist.Headed) (descends : netlist.Descends) :
    readAscii netlist.asciiFile =
      (do let _ ← netlist.outputWords.mapM (readLiteral .output); netlist.build) := by
  rw [readAscii, buildAscii_asciiFile headed descends, assemble_finish]

theorem readBinary_binaryFile (headed : netlist.Headed) (descends : netlist.Descends) :
    readBinary netlist.binaryFile =
      (do let _ ← netlist.outputWords.mapM (readLiteral .output); netlist.build) := by
  rw [readBinary, buildBinary_binaryFile headed descends, assemble_finish]

theorem read_of_not_headed (headless : ¬ netlist.Headed) :
    ∃ failure, readAscii netlist.asciiFile = .error failure ∧
      readBinary netlist.binaryFile = .error failure := by
  cases tokens : Header.ofTokens (netlist.headerWords "aag") with
  | ok header => exact absurd ((ofTokens_headerWords_iff (.inl rfl)).mp tokens).1 headless
  | error failure =>
      refine ⟨failure, ?_, ?_⟩
      · rw [readAscii, buildAscii, asciiFile, List.append_assoc, List.append_assoc,
          readHeader_headerWords (.inl rfl), tokens]
        rfl
      · rw [readBinary, buildBinary, binaryFile, List.append_assoc,
          readHeader_headerWords (.inr rfl), tokens]
        rfl

theorem readLiteral_outputWords (fits : ∀ literal ∈ netlist.outputs, literal < Word.limit) :
    netlist.outputWords.mapM (readLiteral .output) = .ok netlist.outputs := by
  rw [outputWords, List.mapM_map]
  have read : ∀ literal ∈ netlist.outputs,
      (readLiteral .output ∘ fun literal => [toString literal]) literal = .ok (id literal) :=
    fun literal member => readLiteral_eq_ok_iff.mpr ⟨_, rfl, spells_toString (fits literal member)⟩
  rw [mapM_eq_ok read, List.map_id]

theorem exists_build_iff (headed : netlist.Headed) (descends : netlist.Descends) :
    (∃ aig, netlist.build = .ok aig) ↔
      ∀ literal ∈ netlist.outputs, literal / 2 ≤ netlist.inputs + netlist.gates.length := by
  obtain ⟨first, last, added, run⟩ := exists_builders headed descends
  have started := Builder.sound_start netlist.header
  have inputs := started.extends_addInputs added
  have gates := inputs.sound.extends_builds run
  have knows := gates.knows (inputs.knows (Builder.knows_start netlist.header))
  have defined : ∀ name, name ∈ last.signals ↔ name ≤ netlist.inputs + netlist.gates.length := by
    intro name
    rw [knows name, List.mem_append, List.mem_append, definitions, mem_targets_numbered,
      inputNames, List.mem_range'_1, List.mem_singleton]
    omega
  have steps : netlist.build = last.finish netlist.outputs := by
    rw [build, added]
    show (netlist.definitions.foldlM Builder.build first >>= _) = _
    rw [run]
    rfl
  rw [steps, gates.sound.exists_finish_iff]
  simp only [defined]

/-- Both readers make the same of the two files of a netlist, and they return a
graph exactly if the header is valid and the outputs are defined. -/
theorem formats_agree (descends : netlist.Descends) :
    readBinary netlist.binaryFile = readAscii netlist.asciiFile ∧
      ((∃ aig, readAscii netlist.asciiFile = .ok aig) ↔
        netlist.Headed ∧
          ∀ literal ∈ netlist.outputs, literal / 2 ≤ netlist.inputs + netlist.gates.length) := by
  -- Without a valid header both readers stop there, with the same error.
  by_cases headed : netlist.Headed
  · have ascii := readAscii_asciiFile headed descends
    have binary := readBinary_binaryFile headed descends
    refine ⟨binary.trans ascii.symm, ?_⟩
    rw [ascii]
    constructor
    · rintro ⟨aig, read⟩
      obtain ⟨_, _, built⟩ := bind_eq_ok.mp read
      exact ⟨headed, (exists_build_iff headed descends).mp ⟨aig, built⟩⟩
    · rintro ⟨_, defined⟩
      obtain ⟨aig, built⟩ := (exists_build_iff headed descends).mpr defined
      have enough := headed.enough
      have fits := headed.fits
      have small : ∀ literal ∈ netlist.outputs, literal < Word.limit := by
        intro literal member
        have bound := defined literal member
        omega
      exact ⟨aig, bind_eq_ok.mpr ⟨_, readLiteral_outputWords small, built⟩⟩
  · obtain ⟨failure, ascii, binary⟩ := read_of_not_headed headed
    refine ⟨binary.trans ascii.symm, ?_⟩
    rw [ascii]
    constructor
    · rintro ⟨_, read⟩
      cases read
    · rintro ⟨valid, _⟩
      exact absurd valid headed

/-- Some gates of this netlist are constant and some are equal to others, so
later literals stand for earlier signals. -/
def redundant : Netlist :=
  { maxVariable := 9
    inputs := 2
    outputs := [17, 14, 11, 1]
    gates := [(4, 2), (4, 2), (6, 0), (8, 7), (13, 6), (15, 8)] }

theorem formats_agree_redundant :
    redundant.Descends ∧ readBinary redundant.binaryFile = readAscii redundant.asciiFile ∧
      ∃ aig, readAscii redundant.asciiFile = .ok aig := by
  have descends : redundant.Descends := by decide
  obtain ⟨agree, accepted⟩ := formats_agree descends
  have headed : redundant.Headed := ⟨by decide, by decide, by decide⟩
  exact ⟨descends, agree, accepted.mpr ⟨headed, by decide⟩⟩

end Netlist

end Aiger

end AndInverter
