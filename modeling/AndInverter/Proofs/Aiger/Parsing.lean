import AndInverter.Proofs.Aiger.Text

/-!
# What the reader of ASCII files takes from the text

Each line is read exactly as the grammar describes it.  So reading succeeds
exactly if the bytes form a file whose description has enough variables and
can be built, and the description of a file is unique.
-/

namespace AndInverter

namespace Aiger

private theorem checkEven_eq_ok_iff {literal : Nat} {done : Unit} :
    checkEven literal = .ok done ↔ literal % 2 = 0 := by
  unfold checkEven
  split
  · rename_i odd
    simp [odd]
  · rename_i even
    simp only [true_iff]
    omega

theorem readLiteral_eq_ok_iff {kind : LiteralLine} {line : List String} {literal : Nat} :
    readLiteral kind line = .ok literal ↔ OutputLine line literal := by
  constructor
  · intro read
    match line, read with
    | [token], read => exact ⟨token, rfl, readNumber_eq_ok_iff.mp read⟩
  · rintro ⟨token, rfl, spells⟩
    exact readNumber_eq_ok_iff.mpr spells

theorem readInput_eq_ok_iff {line : List String} {name : Nat} :
    readInput line = .ok name ↔ InputLine line name := by
  simp only [readInput, bind_eq_ok, readLiteral_eq_ok_iff, checkEven_eq_ok_iff]
  constructor
  · rintro ⟨literal, ⟨token, rfl, spells⟩, _, even, rest⟩
    split at rest
    · simp at rest
    · rename_i nonzero
      simp only [pure_eq_ok] at rest
      have whole : 2 * name = literal := by omega
      exact ⟨token, rfl, whole ▸ spells, by omega⟩
  · rintro ⟨token, rfl, spells, nonzero⟩
    refine ⟨2 * name, ⟨token, rfl, spells⟩, (), by omega, ?_⟩
    rw [if_neg (by omega)]
    simp

theorem readDefinition_eq_ok_iff {line : List String} {definition : Definition} :
    readDefinition line = .ok definition ↔ GateLine line definition := by
  constructor
  · intro read
    match line, read with
    | [target, left, right], read =>
        simp only [readDefinition, bind_eq_ok, readNumber_eq_ok_iff, checkEven_eq_ok_iff] at read
        obtain ⟨literal, own, first, spellsFirst, second, spellsSecond, _, even, rest⟩ := read
        split at rest
        · simp at rest
        · rename_i nonzero
          simp only [pure_eq_ok] at rest
          cases rest
          have whole : 2 * (literal / 2) = literal := by omega
          exact ⟨target, left, right, rfl, whole.symm ▸ own, by show literal / 2 ≠ 0; omega,
            spellsFirst, spellsSecond⟩
  · rintro ⟨target, left, right, rfl, own, nonzero, first, second⟩
    simp only [readDefinition, bind_eq_ok, readNumber_eq_ok_iff, checkEven_eq_ok_iff]
    refine ⟨_, own, _, first, _, second, (), by omega, ?_⟩
    rw [if_neg (by omega)]
    simp

private theorem check_eq_ok_iff {maxVariable inputs latches outputs gates : Nat} {header : Header} :
    Header.check maxVariable inputs latches outputs gates = .ok header ↔
      latches = 0 ∧ inputs + gates ≤ maxVariable ∧ 2 * (maxVariable + 1) < Word.limit ∧
        header = { maxVariable, inputs, outputs, gates } := by
  unfold Header.check
  split
  · simp only [reduceCtorEq, false_iff]
    omega
  · split
    · simp only [reduceCtorEq, false_iff]
      omega
    · split
      · simp only [reduceCtorEq, false_iff]
        omega
      · simp only [Except.ok.injEq, eq_comm (a := header)]
        constructor
        · intro same
          exact ⟨by omega, by omega, by omega, same⟩
        · rintro ⟨_, _, _, same⟩
          exact same

theorem ofTokens_eq_ok_iff {line : List String} {header : Header} :
    Header.ofTokens line = .ok header ↔
      HeaderLine line header ∧ header.inputs + header.gates ≤ header.maxVariable ∧
        2 * (header.maxVariable + 1) < Word.limit := by
  constructor
  · intro read
    match line, read with
    | format :: maxVariable :: inputs :: latches :: outputs :: gates :: rest, read =>
        rw [Header.ofTokens] at read
        split at read
        · cases read
        · rename_i known
          simp only [bind_eq_ok, readNumber_eq_ok_iff] at read
          obtain ⟨_, spellsMaxVariable, _, spellsInputs, _, spellsLatches, _, spellsOutputs,
            _, spellsGates, read⟩ := read
          split at read
          · rename_i ended
            obtain ⟨rfl, enough, fits, rfl⟩ := check_eq_ok_iff.mp read
            have last : rest = [] := List.isEmpty_iff.mp ended
            subst last
            have named : format = "aag" ∨ format = "aig" := by
              by_contra unknown
              exact known (not_or.mp unknown)
            exact ⟨⟨format, maxVariable, inputs, latches, outputs, gates, rfl, named,
              spellsMaxVariable, spellsInputs, spellsLatches, spellsOutputs, spellsGates⟩,
              enough, fits⟩
          · cases read
  · rintro ⟨⟨format, maxVariable, inputs, latches, outputs, gates, rfl, named,
      spellsMaxVariable, spellsInputs, spellsLatches, spellsOutputs, spellsGates⟩, enough, fits⟩
    rw [Header.ofTokens]
    have known : ¬ (format ≠ "aag" ∧ format ≠ "aig") :=
      fun unknown => named.elim unknown.1 unknown.2
    rw [if_neg known]
    simp only [bind_eq_ok, readNumber_eq_ok_iff]
    exact ⟨_, spellsMaxVariable, _, spellsInputs, _, spellsLatches, _, spellsOutputs,
      _, spellsGates, check_eq_ok_iff.mpr ⟨rfl, enough, fits, rfl⟩⟩

theorem readHeader_eq_ok_iff {content rest : List UInt8} {header : Header} :
    Header.read content = .ok (header, rest) ↔
      ∃ line, BeginsWith content line rest ∧ HeaderLine line header ∧
        header.inputs + header.gates ≤ header.maxVariable ∧
        2 * (header.maxVariable + 1) < Word.limit := by
  simp only [Header.read, bind_eq_ok, pure_eq_ok, Prod.exists, Prod.mk.injEq]
  constructor
  · rintro ⟨line, following, begins, _, read, rfl, rfl⟩
    exact ⟨line, readTokens_eq_ok_iff.mp begins, ofTokens_eq_ok_iff.mp read⟩
  · rintro ⟨line, begins, spells⟩
    exact ⟨line, rest, readTokens_eq_ok_iff.mpr begins, header, ofTokens_eq_ok_iff.mpr spells,
      rfl, rfl⟩

/-! ### Descriptions -/

theorem Spells.unique {token : String} {first second : Nat} (left : Spells token first)
    (right : Spells token second) : first = second := by
  have read := number?_eq_some_iff.mpr left
  rw [number?_eq_some_iff.mpr right] at read
  exact (Option.some.inj read).symm

theorem BeginsWith.unique {content first second : List UInt8} {line other : List String}
    (left : BeginsWith content line first) (right : BeginsWith content other second) :
    line = other ∧ first = second := by
  have read := readTokens_eq_ok_iff.mpr left
  rw [readTokens_eq_ok_iff.mpr right] at read
  cases read
  exact ⟨rfl, rfl⟩

theorem Lines.unique {Entry : Type} {read : List String → Except Failure Entry}
    {spelled : List String → Entry → Prop}
    (reads : ∀ line entry, read line = .ok entry ↔ spelled line entry)
    {content first second : List UInt8} {entries others : List Entry}
    (left : Lines spelled content entries first) (right : Lines spelled content others second)
    (number : entries.length = others.length) : entries = others ∧ first = second := by
  have found := (readLines_eq_ok_iff reads).mpr ⟨left, number⟩
  rw [(readLines_eq_ok_iff reads).mpr ⟨right, rfl⟩] at found
  cases found
  exact ⟨rfl, rfl⟩

namespace Description

/-- The variables that a header announces are enough, and fit into words. -/
structure Announced (description : Description) : Prop where
  enough : description.inputs.length + description.definitions.length ≤ description.maxVariable
  fits : 2 * (description.maxVariable + 1) < Word.limit

/-- The graph of a description: first the inputs, then the gates, in as many
passes as it takes, and then the outputs. -/
def build (description : Description) : Except Failure Aig := do
  let builder ← description.inputs.foldlM Builder.addInput (Builder.start description.header)
  let builder ← builder.addGates description.definitions
  builder.finish description.outputs

def read (content : List UInt8) : Except Failure Description := do
  let (header, content) ← Header.read content
  let (inputs, content) ← readLines readInput header.inputs content
  let (outputs, content) ← readLines (readLiteral .output) header.outputs content
  let (definitions, _) ← readLines readDefinition header.gates content
  return { maxVariable := header.maxVariable, inputs, outputs, definitions }

end Description

theorem Describes.unique {content : List UInt8} {first second : Description}
    (left : Describes content first) (right : Describes content second) : first = second := by
  obtain ⟨line, body, outputs, gates, rest, begins, header, inputLines, outputLines,
    gateLines⟩ := left
  obtain ⟨line', body', outputs', gates', rest', begins', header', inputLines', outputLines',
    gateLines'⟩ := right
  obtain ⟨rfl, rfl⟩ := begins.unique begins'
  obtain ⟨_, _, _, _, _, _, rfl, _, spellsMaxVariable, spellsInputs, _, spellsOutputs,
    spellsGates⟩ := header
  obtain ⟨_, _, _, _, _, _, same, _, spellsMaxVariable', spellsInputs', _, spellsOutputs',
    spellsGates'⟩ := header'
  cases same
  obtain ⟨inputs, rfl⟩ := inputLines.unique (fun _ _ => readInput_eq_ok_iff) inputLines'
    (spellsInputs.unique spellsInputs')
  have readOutput : ∀ line literal, readLiteral .output line = .ok literal ↔
      OutputLine line literal := fun _ _ => readLiteral_eq_ok_iff
  obtain ⟨outputs, rfl⟩ := outputLines.unique readOutput outputLines'
    (spellsOutputs.unique spellsOutputs')
  obtain ⟨definitions, _⟩ := gateLines.unique (fun _ _ => readDefinition_eq_ok_iff) gateLines'
    (spellsGates.unique spellsGates')
  cases first
  cases second
  simp only [Description.mk.injEq]
  exact ⟨spellsMaxVariable.unique spellsMaxVariable', inputs, outputs, definitions⟩

theorem Description.read_eq_ok_iff {content : List UInt8} {description : Description} :
    Description.read content = .ok description ↔
      Describes content description ∧ description.Announced := by
  simp only [Description.read, bind_eq_ok, Prod.exists, pure_eq_ok, readHeader_eq_ok_iff,
    readLines_eq_ok_iff (fun _ _ => readInput_eq_ok_iff),
    readLines_eq_ok_iff (fun _ _ => readLiteral_eq_ok_iff),
    readLines_eq_ok_iff (fun _ _ => readDefinition_eq_ok_iff)]
  constructor
  · rintro ⟨header, body, ⟨line, begins, spells, enough, fits⟩, names, outputs,
      ⟨inputLines, inputCount⟩, literals, gates, ⟨outputLines, outputCount⟩,
      definitions, rest, ⟨gateLines, gateCount⟩, rfl⟩
    have same : header = Description.header ⟨header.maxVariable, names, literals, definitions⟩ := by
      cases header
      simp only [Description.header, Header.mk.injEq, true_and]
      exact ⟨inputCount.symm, outputCount.symm, gateCount.symm⟩
    rw [same] at spells enough fits
    exact ⟨⟨line, body, outputs, gates, rest, begins, spells, inputLines, outputLines, gateLines⟩,
      ⟨enough, fits⟩⟩
  · rintro ⟨⟨line, body, outputs, gates, rest, begins, spells, inputLines, outputLines, gateLines⟩,
      announced⟩
    exact ⟨description.header, body, ⟨line, begins, spells, announced.enough, announced.fits⟩,
      description.inputs, outputs, ⟨inputLines, rfl⟩, description.outputs, gates,
      ⟨outputLines, rfl⟩, description.definitions, rest, ⟨gateLines, rfl⟩, rfl⟩

theorem readInputs_eq_ok_iff {count : Nat} {builder next : Builder} {content rest : List UInt8} :
    readInputs count builder content = .ok (next, rest) ↔
      ∃ names, readLines readInput count content = .ok (names, rest) ∧
        names.foldlM Builder.addInput builder = .ok next := by
  induction count generalizing builder content with
  | zero => simp [readInputs, readLines, pure, Except.pure, and_comm]
  | succ count induction =>
      simp only [readInputs, readLines, bind_eq_ok, Prod.exists, pure_eq_ok, Prod.mk.injEq,
        induction]
      constructor
      · rintro ⟨line, following, begins, name, own, middle, first, names, lines, others⟩
        exact ⟨name :: names, ⟨line, following, begins, name, own, names, rest, lines, rfl, rfl⟩,
          bind_eq_ok.mpr ⟨middle, first, others⟩⟩
      · rintro ⟨_, ⟨line, following, begins, name, own, names, _, lines, rfl, rfl⟩, added⟩
        obtain ⟨middle, first, others⟩ := bind_eq_ok.mp added
        exact ⟨line, following, begins, name, own, middle, first, names, lines, others⟩

/-- The inputs and gates that the file describes are built, and its outputs
are left. -/
theorem buildAscii_eq_ok_iff {content : List UInt8} {builder : Builder} {outputs : List Nat} :
    buildAscii content = .ok (builder, outputs) ↔
      ∃ description first, Description.read content = .ok description ∧
        description.inputs.foldlM Builder.addInput (Builder.start description.header) = .ok first ∧
        first.addGates description.definitions = .ok builder ∧ description.outputs = outputs := by
  simp only [buildAscii, Description.read, bind_eq_ok, Prod.exists, pure_eq_ok, Prod.mk.injEq,
    readInputs_eq_ok_iff]
  constructor
  · rintro ⟨header, body, headed, first, outputs, ⟨names, inputLines, added⟩, literals, gates,
      outputLines, definitions, rest, gateLines, builder, building, rfl, rfl⟩
    exact ⟨_, first, ⟨header, body, headed, names, outputs, inputLines, literals, gates,
      outputLines, definitions, rest, gateLines, rfl⟩, added, building, rfl⟩
  · rintro ⟨_, first, ⟨header, body, headed, names, outputs, inputLines, literals, gates,
      outputLines, definitions, rest, gateLines, rfl⟩, added, building, rfl⟩
    exact ⟨header, body, headed, first, outputs, ⟨names, inputLines, added⟩, literals, gates,
      outputLines, definitions, rest, gateLines, builder, building, rfl, rfl⟩

/-- Reading builds what the file describes. -/
theorem readAscii_eq_ok_iff {content : List UInt8} {aig : Aig} :
    readAscii content = .ok aig ↔
      ∃ description, Description.read content = .ok description ∧
        description.build = .ok aig := by
  simp only [readAscii, Description.build, bind_eq_ok, Prod.exists, buildAscii_eq_ok_iff]
  constructor
  · rintro ⟨builder, _, ⟨description, first, read, added, building, rfl⟩, finished⟩
    exact ⟨description, read, first, added, builder, building, finished⟩
  · rintro ⟨description, read, first, added, builder, building, finished⟩
    exact ⟨builder, _, ⟨description, first, read, added, building, rfl⟩, finished⟩

end Aiger

end AndInverter
