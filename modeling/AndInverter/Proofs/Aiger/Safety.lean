import AndInverter.Proofs.Aiger.Capacity
import AndInverter.Proofs.Aiger.Formats
import AndInverter.Proofs.Failures

/-!
# Readers on any bytes

A reader returns a well-formed graph or blames the file, unless so many outputs
read one node that its counter overflows.  It breaks no other condition of an
operation and never fails in the final check.  The header bounds all literals
of the gates, and the operands of each conjunction are live because the known
variables are bound to live signals.
-/

namespace AndInverter

/-- An operation fails for a fault of the file only. -/
def BlamesFile {Value : Type} (outcome : Except Failure Value) : Prop :=
  ∀ failure, outcome = .error failure → ∃ cause, failure = .parse cause

section BlamesFile

variable {Value Result : Type}

theorem blamesFile_ok (value : Value) : BlamesFile (.ok value : Except Failure Value) :=
  FailsOnly.ok value

theorem blamesFile_parse (cause : ParseError) :
    BlamesFile (.error (.parse cause) : Except Failure Value) :=
  FailsOnly.error ⟨cause, rfl⟩

theorem blamesFile_bind {first : Except Failure Value} {next : Value → Except Failure Result}
    (head : BlamesFile first) (rest : ∀ value, first = .ok value → BlamesFile (next value)) :
    BlamesFile (first >>= next) :=
  FailsOnly.bind head rest

theorem blamesFile_foldlM {Entry State : Type} {advance : State → Entry → Except Failure State}
    (law : State → Prop)
    (each : ∀ {state entry}, law state → BlamesFile (advance state entry))
    (kept : ∀ {state entry next}, law state → advance state entry = .ok next → law next)
    {entries : List Entry} {state : State} (holds : law state) :
    BlamesFile (entries.foldlM advance state) :=
  FailsOnly.foldlM law each kept holds

end BlamesFile

namespace Aiger

/-! ### Text -/

private theorem blamesFile_readTokens (content : List UInt8) : BlamesFile (readTokens content) := by
  unfold readTokens
  split
  · exact blamesFile_parse _
  · refine blamesFile_bind ?_ fun _ _ => blamesFile_ok _
    unfold decodeLine
    split
    · exact blamesFile_ok _
    · exact blamesFile_parse _

private theorem blamesFile_readNumber (token : String) : BlamesFile (readNumber token) := by
  unfold readNumber
  split
  · exact blamesFile_ok _
  · exact blamesFile_parse _

private theorem blamesFile_checkEven (literal : Nat) : BlamesFile (checkEven literal) := by
  unfold checkEven
  split
  · exact blamesFile_parse _
  · exact blamesFile_ok _

theorem blamesFile_readLiteral (kind : LiteralLine) (line : List String) :
    BlamesFile (readLiteral kind line) := by
  unfold readLiteral
  split
  · exact blamesFile_parse _
  · exact blamesFile_readNumber _
  · exact blamesFile_parse _

theorem blamesFile_readInput (line : List String) : BlamesFile (readInput line) := by
  refine blamesFile_bind (blamesFile_readLiteral _ line) fun literal _ => ?_
  refine blamesFile_bind (blamesFile_checkEven literal) fun _ _ => ?_
  dsimp only
  split
  · exact blamesFile_parse _
  · exact blamesFile_ok _

theorem blamesFile_readDefinition (line : List String) : BlamesFile (readDefinition line) := by
  unfold readDefinition
  split
  · refine blamesFile_bind (blamesFile_readNumber _) fun target _ => ?_
    refine blamesFile_bind (blamesFile_readNumber _) fun left _ => ?_
    refine blamesFile_bind (blamesFile_readNumber _) fun right _ => ?_
    refine blamesFile_bind (blamesFile_checkEven target) fun _ _ => ?_
    dsimp only
    split
    · exact blamesFile_parse _
    · exact blamesFile_ok _
  · exact blamesFile_parse _
  · exact blamesFile_parse _

theorem blamesFile_readLines {Entry : Type} {read : List String → Except Failure Entry}
    (each : ∀ line, BlamesFile (read line)) (count : Nat) (content : List UInt8) :
    BlamesFile (readLines read count content) := by
  induction count generalizing content with
  | zero => exact blamesFile_ok _
  | succ count induction =>
      refine blamesFile_bind (blamesFile_readTokens content) fun tokens _ => ?_
      refine blamesFile_bind (each tokens.1) fun entry _ => ?_
      exact blamesFile_bind (induction tokens.2) fun _ _ => blamesFile_ok _

theorem blamesFile_readHeader (content : List UInt8) : BlamesFile (Header.read content) := by
  refine blamesFile_bind (blamesFile_readTokens content) fun tokens _ => ?_
  refine blamesFile_bind ?_ fun _ _ => blamesFile_ok _
  unfold Header.ofTokens
  split
  · split
    · exact blamesFile_parse _
    · refine blamesFile_bind (blamesFile_readNumber _) fun maxVariable _ => ?_
      refine blamesFile_bind (blamesFile_readNumber _) fun inputs _ => ?_
      refine blamesFile_bind (blamesFile_readNumber _) fun latches _ => ?_
      refine blamesFile_bind (blamesFile_readNumber _) fun outputs _ => ?_
      refine blamesFile_bind (blamesFile_readNumber _) fun gates _ => ?_
      split
      · unfold Header.check
        split
        · exact blamesFile_parse _
        · split
          · exact blamesFile_parse _
          · split
            · exact blamesFile_parse _
            · exact blamesFile_ok _
      · exact blamesFile_parse _
  · exact blamesFile_parse _

theorem blamesFile_decodeGroups (group value : Nat) (bytes : List UInt8) :
    BlamesFile (decodeGroups group value bytes) := by
  induction bytes generalizing group value with
  | nil => exact blamesFile_parse _
  | cons byte bytes induction =>
      unfold decodeGroups
      split
      · exact blamesFile_parse _
      · dsimp only
        split
        · exact blamesFile_ok _
        · exact induction _ _

theorem blamesFile_definitionOf (literal first second : Nat) :
    BlamesFile (definitionOf literal first second) := by
  unfold definitionOf
  split
  · exact blamesFile_parse _
  · split
    · exact blamesFile_parse _
    · split
      · exact blamesFile_parse _
      · exact blamesFile_ok _

/-! ### Building -/

namespace Builder

variable {builder : Builder}

theorem blamesFile_define (builder : Builder) (name : Nat) (edge : Edge) :
    BlamesFile (builder.define name edge) := by
  unfold define
  split
  · exact blamesFile_parse _
  · split
    · exact blamesFile_parse _
    · exact blamesFile_ok _

theorem blamesFile_addInput (builder : Builder) (name : Nat) :
    BlamesFile (builder.addInput name) :=
  blamesFile_define _ name _

theorem blamesFile_resolve (builder : Builder) (literal : Nat) :
    BlamesFile (builder.resolve literal) := by
  unfold resolve
  split
  · exact blamesFile_ok _
  · exact blamesFile_parse _

theorem Sound.blamesFile_addGate (sound : builder.Sound) {definition : Definition}
    {left right : Edge} (leftFound : builder.signal? definition.left = some left)
    (rightFound : builder.signal? definition.right = some right) :
    BlamesFile (builder.addGate definition left right) := by
  have created := Aig.createAnd_of_live (sound.live_signal? leftFound)
    (sound.live_signal? rightFound)
  rw [addGate, created]
  exact blamesFile_define _ definition.target _

theorem Sound.blamesFile_build (sound : builder.Sound) (definition : Definition) :
    BlamesFile (builder.build definition) := by
  refine blamesFile_bind (blamesFile_resolve builder definition.left) fun left leftFound => ?_
  refine blamesFile_bind (blamesFile_resolve builder definition.right) fun right rightFound => ?_
  exact sound.blamesFile_addGate (resolve_eq_ok_iff.mp leftFound) (resolve_eq_ok_iff.mp rightFound)

theorem Sound.blamesFile_pass (sound : builder.Sound) (definitions : List Definition) :
    BlamesFile (builder.pass definitions) := by
  induction definitions generalizing builder with
  | nil => exact blamesFile_ok _
  | cons definition definitions induction =>
      rw [pass]
      split
      · rename_i left right leftFound rightFound
        refine blamesFile_bind (sound.blamesFile_addGate leftFound rightFound) fun next added => ?_
        have built := (build_of_signals leftFound rightFound).trans added
        exact induction (sound.extends_build built).sound
      · exact blamesFile_bind (induction sound) fun _ _ => blamesFile_ok _

theorem Sound.blamesFile_addGates (sound : builder.Sound) (definitions : List Definition) :
    BlamesFile (builder.addGates definitions) := by
  induction size : definitions.length using Nat.strong_induction_on
    generalizing builder definitions with
  | _ size induction =>
      rw [addGates]
      refine blamesFile_bind (sound.blamesFile_pass definitions) fun passed result => ?_
      obtain ⟨next, pending⟩ := passed
      obtain ⟨built, _, run⟩ := exists_built_of_pass result
      cases pending with
      | nil => exact blamesFile_ok _
      | cons stuck pending =>
          dsimp only
          split
          · rename_i fewer
            exact induction _ (size ▸ fewer) (sound.extends_builds run).sound _ rfl
          · exact blamesFile_parse _

theorem Sound.sound_of_addOutput (sound : builder.Sound) {literal : Nat} {next : Builder}
    (added : builder.addOutput literal = .ok next) : next.Sound := by
  obtain ⟨edge, found, rfl⟩ := sound.addOutput_eq_ok_iff.mp added
  exact sound.withOutput found

theorem Sound.blamesFile_addOutput (sound : builder.Sound) (literal : Nat) :
    BlamesFile (builder.addOutput literal) := by
  refine blamesFile_bind (blamesFile_resolve builder literal) fun edge found => ?_
  have live := sound.live_signal? (resolve_eq_ok_iff.mp found)
  simp only [Aig.addOutput, Aig.checkEdge, live]
  exact blamesFile_ok _

theorem Sound.blamesFile_finish (sound : builder.Sound) (literals : List Nat) :
    BlamesFile (builder.finish literals) := by
  refine blamesFile_bind (blamesFile_foldlM Sound (fun sound => sound.blamesFile_addOutput _)
    (fun sound added => sound.sound_of_addOutput added) sound) fun last added => ?_
  obtain ⟨edges, found, rfl⟩ := sound.addOutputs_eq_ok_iff.mp added
  rw [(sound.intact_appendOutputs found).wellFormed.checkIntegrity]
  exact blamesFile_ok _

end Builder

theorem blamesFile_readGates {count literal : Nat} {builder : Builder} (sound : builder.Sound)
    (content : List UInt8) (fits : literal + 2 * count < Word.limit) :
    BlamesFile (readGates count literal builder content) := by
  induction count generalizing literal builder content with
  | zero => exact blamesFile_ok _
  | succ count induction =>
      refine blamesFile_bind (blamesFile_decodeGroups 0 0 content) fun first _ => ?_
      refine blamesFile_bind (blamesFile_decodeGroups 0 0 first.2) fun second _ => ?_
      refine blamesFile_bind (blamesFile_definitionOf literal first.1 second.1)
        fun definition _ => ?_
      refine blamesFile_bind (sound.blamesFile_build definition) fun next built => ?_
      have word : Word.sum literal 2 = .ok (literal + 2) := if_pos (by omega)
      rw [word]
      exact induction (sound.extends_build built).sound _ (by omega)

theorem blamesFile_readInputs (count : Nat) (builder : Builder) (content : List UInt8) :
    BlamesFile (readInputs count builder content) := by
  induction count generalizing builder content with
  | zero => exact blamesFile_ok _
  | succ count induction =>
      refine blamesFile_bind (blamesFile_readTokens content) fun tokens _ => ?_
      refine blamesFile_bind (blamesFile_readInput tokens.1) fun name _ => ?_
      exact blamesFile_bind (builder.blamesFile_addInput name) fun next _ => induction next tokens.2

theorem blamesFile_buildAscii (content : List UInt8) : BlamesFile (buildAscii content) := by
  refine blamesFile_bind (blamesFile_readHeader content) fun header _ => ?_
  refine blamesFile_bind (blamesFile_readInputs _ _ _) fun inputs read => ?_
  refine blamesFile_bind (blamesFile_readLines (blamesFile_readLiteral .output) _ _)
    fun outputs _ => ?_
  refine blamesFile_bind (blamesFile_readLines blamesFile_readDefinition _ _)
    fun definitions _ => ?_
  obtain ⟨builder, body⟩ := inputs
  obtain ⟨names, _, added⟩ := readInputs_eq_ok_iff.mp read
  have sound := ((Builder.sound_start header.1).extends_addInputs added).sound
  exact blamesFile_bind (sound.blamesFile_addGates definitions.1) fun _ _ => blamesFile_ok _

/-- Reading gates one by one is building definitions one by one. -/
theorem exists_builds_of_readGates {count literal : Nat} {builder next : Builder}
    {content : List UInt8} (read : readGates count literal builder content = .ok next) :
    ∃ definitions : List Definition, definitions.foldlM Builder.build builder = .ok next := by
  induction count generalizing literal builder content with
  | zero =>
      cases read
      exact ⟨[], rfl⟩
  | succ count induction =>
      simp only [readGates, bind_eq_ok] at read
      obtain ⟨_, _, _, _, definition, _, middle, built, _, _, rest⟩ := read
      obtain ⟨definitions, run⟩ := induction rest
      exact ⟨definition :: definitions, bind_eq_ok.mpr ⟨middle, built, run⟩⟩

theorem blamesFile_buildBinary (content : List UInt8) : BlamesFile (buildBinary content) := by
  refine blamesFile_bind (blamesFile_readHeader content) fun header headed => ?_
  obtain ⟨header, body⟩ := header
  obtain ⟨_, _, _, enough, fits⟩ := readHeader_eq_ok_iff.mp headed
  refine blamesFile_bind (blamesFile_foldlM (fun _ => True)
    (fun _ => Builder.blamesFile_addInput _ _) (fun _ _ => trivial) trivial) fun first added => ?_
  have sound := ((Builder.sound_start header).extends_addInputs added).sound
  refine blamesFile_bind (blamesFile_readLines (blamesFile_readLiteral .output) _ _)
    fun outputs _ => ?_
  have literal : firstGate header.inputs = .ok (2 * (header.inputs + 1)) := if_pos (by omega)
  refine blamesFile_bind (literal ▸ blamesFile_ok _) fun start found => ?_
  cases literal.symm.trans found
  exact blamesFile_bind (blamesFile_readGates sound outputs.2 (by omega)) fun _ _ =>
    blamesFile_ok _

/-! ### Results -/

private theorem BeginsWith.length_lt {content rest : List UInt8} {line : List String}
    (begins : BeginsWith content line rest) : rest.length < content.length := by
  obtain ⟨text, body, _, ends, rfl, _⟩ := begins
  rw [List.length_append]
  rcases ends with encoded | ⟨encoded, nonempty, _⟩
  · rw [encoded, List.length_append, List.length_singleton]
    omega
  · rw [encoded]
    have positive := List.length_pos_of_ne_nil nonempty
    omega

theorem Lines.length_le {Entry : Type} {spelled : List String → Entry → Prop}
    {content rest : List UInt8} {entries : List Entry}
    (lines : Lines spelled content entries rest) :
    entries.length + rest.length ≤ content.length := by
  induction lines with
  | done content => simp
  | next begins _ _ induction =>
      have shorter := begins.length_lt
      rw [List.length_cons]
      omega

/-- What is left of a file once its gates are built: the outputs have to be
added to a graph that has none. -/
structure Ready (content : List UInt8) (builder : Builder) (outputs : List Nat) : Prop where
  sound : builder.Sound
  bare : builder.aig.outputs = #[]
  few : outputs.length ≤ content.length

theorem ready_of_buildAscii {content : List UInt8} {builder : Builder} {outputs : List Nat}
    (built : buildAscii content = .ok (builder, outputs)) : Ready content builder outputs := by
  obtain ⟨description, first, parsed, added, building, rfl⟩ := buildAscii_eq_ok_iff.mp built
  obtain ⟨order, _, run⟩ := Builder.exists_order_of_addGates building
  have inputs := (Builder.sound_start description.header).extends_addInputs added
  have gates := inputs.sound.extends_builds run
  obtain ⟨⟨_, _, _, _, _, begins, _, inputLines, outputLines, _⟩, _⟩ :=
    Description.read_eq_ok_iff.mp parsed
  have headed := begins.length_lt
  have skipped := inputLines.length_le
  have few := outputLines.length_le
  exact ⟨gates.sound, gates.outputs.trans inputs.outputs, by omega⟩

theorem ready_of_buildBinary {content : List UInt8} {builder : Builder} {outputs : List Nat}
    (built : buildBinary content = .ok (builder, outputs)) : Ready content builder outputs := by
  simp only [buildBinary, bind_eq_ok, Prod.exists, readHeader_eq_ok_iff, pure_eq_ok,
    Prod.mk.injEq, readLines_eq_ok_iff (fun _ _ => readLiteral_eq_ok_iff)] at built
  obtain ⟨header, body, ⟨_, begins, _⟩, first, added, literals, rest, ⟨outputLines, _⟩, _, _,
    last, gatesRead, rfl, rfl⟩ := built
  obtain ⟨definitions, run⟩ := exists_builds_of_readGates gatesRead
  have inputs := (Builder.sound_start header).extends_addInputs added
  have gates := inputs.sound.extends_builds run
  have headed := begins.length_lt
  have few := outputLines.length_le
  exact ⟨gates.sound, gates.outputs.trans inputs.outputs, by omega⟩

/-- What reading some bytes comes to, where outputs are counted in words.  It
is compared with what was built before the outputs, and with the outcome of
counting without a bound. -/
structure ReadsSafely (content : List UInt8) (built : Except Failure (Builder × List Nat))
    (unbounded outcome : Except Failure Aig) : Prop where
  /-- The only condition that can be broken is that counters do not overflow. -/
  assertion_iff : outcome = .error .assertion ↔
    ∃ builder outputs, built = .ok (builder, outputs) ∧ builder.Overflows outputs
  blames : ∀ failure, outcome = .error failure →
    failure = .assertion ∨ ∃ cause, failure = .parse cause
  wellFormed : ∀ aig, outcome = .ok aig → aig.WellFormed ∧ aig.CountersFit
  agrees : outcome ≠ .error .assertion → outcome = unbounded
  /-- An overflow takes more bytes than there are words. -/
  short : content.length < Counter.limit → outcome ≠ .error .assertion

theorem readsSafely_of_ready {content : List UInt8}
    {built : Except Failure (Builder × List Nat)} (blames : BlamesFile built)
    (ready : ∀ builder outputs, built = .ok (builder, outputs) → Ready content builder outputs) :
    ReadsSafely content built (do let (builder, outputs) ← built; builder.finish outputs)
      (do let (builder, outputs) ← built; builder.finishCounted outputs) := by
  cases built with
  | error failure =>
      obtain ⟨cause, rfl⟩ := blames failure rfl
      refine { assertion_iff := ?_, blames := ?_, wellFormed := nofun, agrees := fun _ => rfl
               short := fun _ => nofun }
      · exact ⟨nofun, fun ⟨_, _, same, _⟩ => nomatch same⟩
      · rintro _ ⟨⟩
        exact .inr ⟨cause, rfl⟩
  | ok result =>
      obtain ⟨builder, outputs⟩ := result
      obtain ⟨sound, bare, few⟩ := ready builder outputs rfl
      have fits := sound.countersFit_of_bare bare
      by_cases overflows : builder.Overflows outputs
      · have failed := sound.finishCounted_of_overflows fits overflows
        show ReadsSafely _ _ (builder.finish outputs) (builder.finishCounted outputs)
        rw [failed]
        refine { assertion_iff := ⟨fun _ => ⟨builder, outputs, rfl, overflows⟩, fun _ => rfl⟩
                 blames := ?_, wellFormed := nofun, agrees := fun same => absurd rfl same
                 short := fun short => ?_ }
        · rintro _ ⟨⟩
          exact .inl rfl
        · have room := sound.not_overflows_of_length bare (Nat.lt_of_le_of_lt few short)
          exact absurd overflows room
      · have same := sound.finishCounted_eq_finish fits overflows
        have blames := sound.blamesFile_finish outputs
        have unbroken : builder.finish outputs ≠ .error .assertion := by
          intro failed
          obtain ⟨_, other⟩ := blames _ failed
          cases other
        show ReadsSafely _ _ (builder.finish outputs) (builder.finishCounted outputs)
        rw [same]
        refine { assertion_iff := ⟨fun failed => absurd failed unbroken, ?_⟩
                 blames := fun failure failed => .inr (blames failure failed)
                 wellFormed := fun aig finished => ?_, agrees := fun _ => rfl
                 short := fun _ => unbroken }
        · rintro ⟨_, _, ⟨⟩, other⟩
          exact absurd other overflows
        · have counted := sound.countersFit_of_finish fits overflows finished
          obtain ⟨edges, found, rfl⟩ := sound.finish_eq_ok_iff.mp finished
          exact ⟨(sound.intact_appendOutputs found).wellFormed, counted⟩

theorem readsSafely_ascii (content : List UInt8) :
    ReadsSafely content (buildAscii content) (readAscii content) (readAsciiCounted content) :=
  readsSafely_of_ready (blamesFile_buildAscii content) fun _ _ => ready_of_buildAscii

theorem readsSafely_binary (content : List UInt8) :
    ReadsSafely content (buildBinary content) (readBinary content) (readBinaryCounted content) :=
  readsSafely_of_ready (blamesFile_buildBinary content) fun _ _ => ready_of_buildBinary

/-- Whatever bytes are read, in either format: the result is a well-formed
graph, or the reader blames the file, or 2^32 outputs read one node. -/
theorem readCounted_safe (content : List UInt8) :
    ReadsSafely content (buildAscii content) (readAscii content) (readAsciiCounted content) ∧
      ReadsSafely content (buildBinary content) (readBinary content)
        (readBinaryCounted content) :=
  ⟨readsSafely_ascii content, readsSafely_binary content⟩

/-! ### A counter that overflows -/

/-- A file without inputs and gates, in which every output is the constant. -/
def crowdedFile (format : String) : List UInt8 :=
  linesOf [[format, "0", "0", "0", "4294967296", "0"]] ++
    linesOf (List.replicate Counter.limit ["0"])

def Netlist.crowded : Netlist :=
  { maxVariable := 0
    inputs := 0
    outputs := List.replicate Counter.limit 0
    gates := [] }

namespace Netlist

private theorem headerWords_crowded (format : String) :
    crowded.headerWords format = [format, "0", "0", "0", "4294967296", "0"] := by
  have digits : toString Counter.limit = "4294967296" := by decide +kernel
  simp only [headerWords, crowded, List.length_replicate, digits]
  rfl

private theorem outputWords_crowded : crowded.outputWords = List.replicate Counter.limit ["0"] := by
  rw [outputWords, crowded, List.map_replicate]
  rfl

theorem asciiFile_crowded : crowded.asciiFile = crowdedFile "aag" := by
  rw [asciiFile, headerWords_crowded, outputWords_crowded, crowdedFile]
  show _ ++ [] ++ _ ++ [] = _
  rw [List.append_nil, List.append_nil]

theorem binaryFile_crowded : crowded.binaryFile = crowdedFile "aig" := by
  rw [binaryFile, headerWords_crowded, outputWords_crowded, crowdedFile]
  exact List.append_nil _

theorem headed_crowded : crowded.Headed := by
  refine ⟨Nat.le_refl 0, by decide, ?_⟩
  rw [crowded, List.length_replicate]
  decide

theorem assemble_crowded :
    crowded.assemble = .ok (Builder.start crowded.header, List.replicate Counter.limit 0) := by
  have small : ∀ literal ∈ crowded.outputs, literal < Word.limit := by
    intro literal member
    rw [List.eq_of_mem_replicate member]
    decide
  rw [assemble, readLiteral_outputWords small]
  rfl

end Netlist

theorem overflows_crowded (header : Header) :
    (Builder.start header).Overflows (List.replicate Counter.limit 0) := by
  have constant : (Builder.start header).signal? 0 = some (.constant false) :=
    Builder.signal?_eq_some_iff.mpr ⟨_, (Builder.sound_start header).constant, rfl⟩
  refine ⟨List.replicate Counter.limit (.constant false), ?_, 0, ?_⟩
  · rw [List.map_replicate, List.map_replicate, constant]
  · rw [List.countP_replicate]
    exact Nat.le_add_left ..

/-- The readers fail on such a file: with the last output the counter of the
constant overflows. -/
theorem readCounted_crowdedFile :
    readAsciiCounted (crowdedFile "aag") = .error .assertion ∧
      readBinaryCounted (crowdedFile "aig") = .error .assertion := by
  have headed := Netlist.headed_crowded
  have descends : Netlist.crowded.Descends := fun _ member => absurd member List.not_mem_nil
  have ascii := Netlist.buildAscii_asciiFile headed descends
  have binary := Netlist.buildBinary_binaryFile headed descends
  rw [Netlist.asciiFile_crowded, Netlist.assemble_crowded] at ascii
  rw [Netlist.binaryFile_crowded, Netlist.assemble_crowded] at binary
  exact ⟨(readsSafely_ascii _).assertion_iff.mpr ⟨_, _, ascii, overflows_crowded _⟩,
    (readsSafely_binary _).assertion_iff.mpr ⟨_, _, binary, overflows_crowded _⟩⟩

end Aiger

end AndInverter
