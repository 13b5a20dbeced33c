import AndInverter.Proofs.Simulation.Exhaustion
import AndInverter.Simulation.Hexadecimal
import Mathlib.Algebra.BigOperators.Group.Finset.Basic
import Mathlib.Data.Nat.Digits.Lemmas
import Mathlib.Tactic.Ring

/-!
# The text of a table

A table is one number in base 2, the bit of each assignment at the place that
the assignment has as a number.  Its words are the digits of this number in
base 2^64, and its text has the digits in base 16.
-/

namespace AndInverter

open Finset (range)

/-! ### Reading hexadecimal digits -/

private theorem hexDigit?_digitChar {digit : Nat} (small : digit < 16) :
    hexDigit? digit.digitChar = some digit := by
  have all : ∀ digit < 16, hexDigit? (Nat.digitChar digit) = some digit := by decide
  exact all digit small

theorem hexadecimal?_append (value : Nat) (first second : List Char) :
    hexadecimal? value (first ++ second) =
      (hexadecimal? value first).bind (hexadecimal? · second) := by
  induction first generalizing value with
  | nil => rfl
  | cons character first induction =>
      simp only [List.cons_append, hexadecimal?, induction, Option.bind_eq_bind,
        Option.bind_assoc]

private theorem hexadecimal?_digitChar (value : Nat) {digit : Nat} (small : digit < 16) :
    hexadecimal? value [digit.digitChar] = some (16 * value + digit) := by
  simp [hexadecimal?, hexDigit?_digitChar small]

private theorem hexadecimal?_zeros (value count : Nat) :
    hexadecimal? value (List.replicate count '0') = some (16 ^ count * value) := by
  induction count generalizing value with
  | zero => simp [hexadecimal?]
  | succ count induction =>
      have zero : hexadecimal? value ['0'] = some (16 * value) :=
        hexadecimal?_digitChar value Nat.ofNat_pos
      rw [List.replicate_succ, ← List.singleton_append, hexadecimal?_append, zero,
        Option.bind_some, induction, Nat.pow_succ]
      congr 1
      ring

/-- The digits of a number add it to the value before them. -/
private theorem hexadecimal?_toDigits (value number : Nat) :
    hexadecimal? value (Nat.toDigits 16 number) =
      some (16 ^ (Nat.toDigits 16 number).length * value + number) := by
  induction number using Nat.strongRecOn with
  | ind number induction =>
      by_cases small : number < 16
      · rw [Nat.toDigits_of_lt_base small, hexadecimal?_digitChar value small]
        rfl
      · have large : 16 ≤ number := Nat.le_of_not_lt small
        have digit : number % 16 < 16 := Nat.mod_lt _ (by decide)
        have parts := Nat.div_add_mod number 16
        have place : 16 ^ ((Nat.toDigits 16 (number / 16)).length + 1) * value =
            16 * (16 ^ (Nat.toDigits 16 (number / 16)).length * value) := by ring
        rw [Nat.toDigits_of_base_le (by decide) large, hexadecimal?_append,
          induction (number / 16) (by omega), Option.bind_some,
          hexadecimal?_digitChar _ digit, List.length_append, List.length_singleton, place]
        congr 1
        omega

namespace TruthTable

/-! ### Digits of words -/

theorem hexadecimal?_digits (value width : Nat) (word : BitVec 64) :
    hexadecimal? value (digits width word) =
      some (16 ^ (digits width word).length * value + word.toNat) := by
  rw [digits, List.leftpad, hexadecimal?_append, hexadecimal?_zeros, Option.bind_some,
    hexadecimal?_toDigits, List.length_append, List.length_replicate, pow_add]
  congr 1
  ring

theorem length_digits {width : Nat} {word : BitVec 64} (positive : 0 < width)
    (small : word.toNat < 16 ^ width) : (digits width word).length = width := by
  have short := (Nat.length_toDigits_le_iff (b := 16) (by decide) positive).mpr small
  rw [digits, List.length_leftpad]
  exact max_eq_left short

/-- Words as the digits of a number in base 2^64, the lowest first. -/
def wordsValue (words : List (BitVec 64)) : Nat :=
  Nat.ofDigits (2 ^ 64) (words.map BitVec.toNat)

private theorem wordsValue_cons (word : BitVec 64) (words : List (BitVec 64)) :
    wordsValue (word :: words) = 2 ^ 64 * wordsValue words + word.toNat := by
  rw [wordsValue, List.map_cons, Nat.ofDigits_cons, Nat.add_comm]
  rfl

theorem testBit_wordsValue (words : List (BitVec 64)) (lane : Nat) :
    (wordsValue words).testBit lane = laneBit words lane := by
  induction words generalizing lane with
  | nil =>
      rw [laneBit_of_length_le (Nat.zero_le _)]
      exact Nat.zero_testBit lane
  | cons word words induction =>
      rw [wordsValue_cons, Nat.testBit_two_pow_mul_add _ word.isLt]
      by_cases first : lane < 64
      · rw [if_pos first, laneBit_head first]
        rfl
      · obtain ⟨later, rfl⟩ := Nat.exists_eq_add_of_le (Nat.le_of_not_lt first)
        rw [if_neg first, Nat.add_sub_cancel_left, induction, laneBit_tail]

/-- Sixteen digits for each word, the highest word first. -/
theorem hexadecimal?_words (value : Nat) (words : List (BitVec 64)) :
    hexadecimal? value (words.reverse.flatMap (digits 16)) =
      some (2 ^ (64 * words.length) * value + wordsValue words) := by
  induction words with
  | nil => simp [hexadecimal?, wordsValue]
  | cons word words induction =>
      have full : (digits 16 word).length = 16 := length_digits Nat.ofNat_pos word.isLt
      rw [List.reverse_cons, List.flatMap_append, hexadecimal?_append, induction,
        Option.bind_some, List.flatMap_singleton, hexadecimal?_digits, full, wordsValue_cons,
        List.length_cons, Nat.mul_succ, pow_add]
      congr 1
      ring

private theorem length_words (words : List (BitVec 64)) :
    (words.reverse.flatMap (digits 16)).length = 16 * words.length := by
  induction words with
  | nil => rfl
  | cons word words induction =>
      have full : (digits 16 word).length = 16 := length_digits Nat.ofNat_pos word.isLt
      rw [List.reverse_cons, List.flatMap_append, List.length_append, induction,
        List.flatMap_singleton, full, List.length_cons, Nat.mul_succ]

/-! ### Bits and values -/

private theorem sum_testBit (number count : Nat) :
    ∑ row ∈ range count, (number.testBit row).toNat * 2 ^ row = number % 2 ^ count := by
  induction count with
  | zero => simp [Nat.mod_one]
  | succ count induction =>
      rw [Finset.sum_range_succ, induction, pow_succ, Nat.mod_mul, Nat.toNat_testBit, Nat.mul_comm]

variable {table left right : TruthTable}

theorem wordsValue_lt (fits : table.Fits) : wordsValue table.words < 2 ^ 2 ^ table.arity := by
  apply Nat.lt_pow_two_of_testBit
  intro lane beyond
  rw [testBit_wordsValue]
  exact fits.unused lane beyond

theorem wordsValue_eq_sum (fits : table.Fits) :
    wordsValue table.words =
      ∑ row ∈ range (2 ^ table.arity), (laneBit table.words row).toNat * 2 ^ row := by
  have sum := sum_testBit (wordsValue table.words) (2 ^ table.arity)
  rw [Nat.mod_eq_of_lt (wordsValue_lt fits)] at sum
  rw [← sum]
  simp only [testBit_wordsValue]

/-! ### Tables that can be built -/

/-- The tables of variables, of signals and of outputs. -/
inductive Built : TruthTable → Prop
  | projection {arity index : Nat} {table : TruthTable}
      (built : projection arity index = .ok table) : Built table
  | edge {aig : Aig} {edge : Edge} {table : TruthTable} (reachable : aig.Reachable)
      (built : aig.edgeTable edge = .ok table) : Built table
  | output {aig : Aig} {tables : List TruthTable} {table : TruthTable}
      (reachable : aig.Reachable) (built : aig.truthTables = .ok tables)
      (listed : table ∈ tables) : Built table

theorem projection_eq_ok_iff {arity index : Nat} :
    projection arity index = .ok table ↔
      (index < arity ∧ arity ≤ maxArity) ∧
        table = ⟨arity, (List.range (wordCount arity)).map (projectionWord arity index)⟩ := by
  rw [projection]
  split
  · rename_i inside
    simp [inside, eq_comm]
  · rename_i outside
    simp [outside]

/-- Below six variables a mask leaves the unused bits out; from six on all bits
are used. -/
theorem fits_projection {arity index : Nat} (bounded : index < arity) :
    Fits ⟨arity, (List.range (wordCount arity)).map (projectionWord arity index)⟩ := by
  constructor
  · rw [List.length_map, List.length_range]
  · intro lane beyond
    by_cases inside : lane < 64 * wordCount arity
    · have few : arity < 6 := by
        by_contra many
        have full := lanes_of_le (Nat.le_of_not_lt many)
        dsimp only at beyond
        omega
      have masked := getLsbD_mask inside
      rw [decide_eq_false (Nat.not_lt.mpr beyond)] at masked
      have within : lane / 64 < wordCount arity := by omega
      have low : index < variableWords.length := bounded.trans few
      simp [laneBit, within, projectionWord, low, masked]
    · apply laneBit_of_length_le
      rw [List.length_map, List.length_range]
      exact Nat.not_lt.mp inside

theorem eq_rowPatterns_of_projections {aig : Aig} {patterns : List (List (BitVec 64))}
    (projected : aig.projections = .ok patterns) :
    patterns = Aig.rowPatterns aig.inputs.size := by
  by_cases few : aig.inputs.size ≤ maxTableInputs
  · rw [Aig.projections_eq_ok few] at projected
    exact (Except.ok.inj projected).symm
  · rw [Aig.projections, if_neg few] at projected
    cases projected

/-- Simulating the rows gives live roots the words of a table.  There may be
cycles elsewhere. -/
theorem fits_of_simulateBelow {aig : Aig} (reachable : aig.Reachable) {roots : List Nat}
    (live : ∀ root ∈ roots, aig.isDead root = false) {values : Array (List (BitVec 64))}
    (simulated : aig.simulateBelow roots (Aig.rowPatterns aig.inputs.size) = .ok values)
    {edge : Edge} (isRoot : edge.node ∈ roots) :
    (ofWords aig.inputs.size (Aig.edgeWords values edge)).Fits := by
  apply fits_ofWords
  have holds := Aig.holdsValue_of_simulateBelow reachable.bookkeeping.toReferences reachable.ports
    (Aig.covers_rowPatterns aig) live simulated isRoot
  rw [Aig.length_edgeWords, holds.length, Aig.wordsPerNode_rowPatterns]

theorem Built.fits (built : Built table) : table.Fits := by
  cases built with
  | projection built =>
      obtain ⟨⟨bounded, _⟩, rfl⟩ := projection_eq_ok_iff.mp built
      exact fits_projection bounded
  | @edge aig edge _ reachable built =>
      simp only [Aig.edgeTable, bind_eq_ok, pure_eq_ok] at built
      obtain ⟨_, checked, patterns, projected, values, simulated, rfl⟩ := built
      have live : aig.isDead edge.node = false := by
        by_contra dead
        simp [Aig.checkEdge, dead] at checked
      cases eq_rowPatterns_of_projections projected
      split
      · apply fits_ofWords
        rw [List.length_replicate]
      · exact fits_of_simulateBelow reachable (by simpa using live) simulated List.mem_cons_self
  | @output aig tables _ reachable built listed =>
      simp only [Aig.truthTables, bind_eq_ok, pure_eq_ok] at built
      obtain ⟨patterns, projected, values, simulated, rfl⟩ := built
      obtain ⟨output, present, rfl⟩ := List.mem_map.mp listed
      cases eq_rowPatterns_of_projections projected
      have live := Aig.outputRoots_live reachable.bookkeeping.toReferences
      exact fits_of_simulateBelow reachable live simulated (List.mem_map_of_mem present)

/-! ### Texts -/

/-- A text has one hexadecimal digit for four bits and at least one, and they
spell the sum of the bits of the table. -/
structure Spelled (table : TruthTable) (text : String) : Prop where
  length : text.length = max 1 (2 ^ table.arity / 4)
  value : ∃ bits : Nat → Bool, (∀ row < 2 ^ table.arity, table.bit row = .ok (bits row)) ∧
    hexadecimal? 0 text.toList =
      some (∑ row ∈ range (2 ^ table.arity), (bits row).toNat * 2 ^ row)

theorem exists_digits (fits : table.Fits) :
    ∃ characters, table.text = String.ofList characters ∧
      characters.length = max 1 (2 ^ table.arity / 4) ∧
      hexadecimal? 0 characters = some (wordsValue table.words) := by
  have below := wordsValue_lt fits
  have length := fits.length
  rw [text]
  by_cases small : table.arity ≤ 6
  · rw [wordCount_of_le small] at length
    obtain ⟨word, single⟩ := List.length_eq_one_iff.mp length
    have value : wordsValue [word] = word.toNat := by simp [wordsValue]
    rw [single, value] at below
    have enough : 2 ^ 2 ^ table.arity ≤ 16 ^ max 1 (2 ^ table.arity / 4) := by
      have all : ∀ arity < 7, 2 ^ 2 ^ arity ≤ 16 ^ max 1 (2 ^ arity / 4) := by decide
      exact all table.arity (Nat.lt_succ_of_le small)
    have width : max (1 <<< table.arity / 4) 1 = max 1 (2 ^ table.arity / 4) := by
      rw [Nat.one_shiftLeft, max_comm]
    refine ⟨_, if_pos small, ?_, ?_⟩
    · rw [single, List.headD_cons, width]
      exact length_digits (lt_max_of_lt_left Nat.one_pos) (below.trans_le enough)
    · rw [single, List.headD_cons, hexadecimal?_digits, value, Nat.mul_zero, Nat.zero_add]
  · have lanes := lanes_of_le (Nat.le_of_not_le small)
    refine ⟨_, if_neg small, ?_, ?_⟩
    · rw [length_words, length, ← lanes]
      have positive : 1 ≤ wordCount table.arity := by
        have := Nat.two_pow_pos table.arity
        omega
      omega
    · rw [hexadecimal?_words, Nat.mul_zero, Nat.zero_add]

theorem spelled_text (fits : table.Fits) : table.Spelled table.text := by
  obtain ⟨characters, written, length, value⟩ := exists_digits fits
  rw [written]
  refine ⟨?_, laneBit table.words, fun row inside => bit_of_fits fits inside, ?_⟩
  · rw [String.length_ofList, length]
  · rw [String.toList_ofList, value, wordsValue_eq_sum fits]

/-- Tables on the same variables with the same text are equal. -/
theorem eq_of_text_eq (leftFits : left.Fits) (rightFits : right.Fits)
    (arity : left.arity = right.arity) (same : left.text = right.text) : left = right := by
  obtain ⟨characters, written, _, value⟩ := exists_digits leftFits
  obtain ⟨characters', written', _, value'⟩ := exists_digits rightFits
  rw [written, written', String.ofList_inj] at same
  rw [same, value', Option.some.injEq] at value
  apply ext_of_fits leftFits rightFits arity
  intro row _
  rw [← testBit_wordsValue, ← testBit_wordsValue, value]

/-- Tables and their texts are exact for every number of variables.  The table
of a variable can be built up to the largest number of variables, and has the
bit of the variable for each assignment and no other bits.  Every table that can
be built has a text of hexadecimal digits that spell its bits, so tables on the
same variables have the same text only if they are equal. -/
theorem texts_exact :
    (∀ arity index, (∃ table, projection arity index = .ok table) ↔
      index < arity ∧ arity ≤ maxArity) ∧
    (∀ arity index table, projection arity index = .ok table →
      table.arity = arity ∧ table.words.length = wordCount arity ∧
      (∀ row < 2 ^ arity, table.bit row = .ok (row.testBit index)) ∧
      ∀ row, 2 ^ arity ≤ row → row < 64 * wordCount arity → table.bit row = .ok false) ∧
    (∀ table, Built table → table.Spelled table.text) ∧
    ∀ left right, Built left → Built right → left.arity = right.arity →
      left.text = right.text → left = right := by
  refine ⟨?_, ?_, ?_, ?_⟩
  · intro arity index
    simp only [projection_eq_ok_iff, exists_and_left, exists_eq, and_true]
  · intro arity index table built
    have fits := (Built.projection built).fits
    obtain ⟨_, rfl⟩ := projection_eq_ok_iff.mp built
    refine ⟨rfl, fits.length, ?_, ?_⟩
    · intro row inside
      rw [bit_of_fits fits inside]
      exact congrArg Except.ok (laneBit_projection index inside)
    · intro row beyond inside
      rw [bit_of_lt (fits.length.symm ▸ inside), fits.unused row beyond]
  · exact fun table built => spelled_text built.fits
  · exact fun left right builtLeft builtRight => eq_of_text_eq builtLeft.fits builtRight.fits

/-- The sixth variable among six and among seven, where the second word begins,
and the complement of a lone input, whose table has two bits of a digit. -/
theorem texts_exact_boundary : ∃ (six seven lone : TruthTable) (aig : Aig),
    projection 6 5 = .ok six ∧ projection 7 5 = .ok seven ∧
      aig.Reachable ∧ aig.edgeTable (Edge.plain 1).not = .ok lone ∧
      six.text = "ffffffff00000000" ∧ six.Spelled "ffffffff00000000" ∧
      seven.text = "ffffffff00000000ffffffff00000000" ∧
      seven.Spelled "ffffffff00000000ffffffff00000000" ∧
      (∀ row < 2 ^ 7, seven.bit row = .ok (row.testBit 5)) ∧
      lone.text = "1" ∧ lone.Spelled "1" ∧
      ∀ other, Built other → other.arity = 1 → other.text = "1" → other = lone := by
  have checked : (do
      let six ← projection 6 5
      let seven ← projection 7 5
      let ended ← Aig.empty.session [.addInput, .addOutput (.plain 1)]
      let lone ← ended.1.edgeTable (Edge.plain 1).not
      return decide (six.text = "ffffffff00000000" ∧
        seven.text = "ffffffff00000000ffffffff00000000" ∧ lone.text = "1" ∧ lone.arity = 1)) =
      .ok true := by
    decide +kernel
  simp only [bind_eq_ok, pure_eq_ok, decide_eq_true_eq] at checked
  obtain ⟨six, sixth, seven, seventh, ⟨aig, _⟩, ended, lone, built, first, second, third,
    arity⟩ := checked
  have reachable : aig.Reachable := Aig.evolves_of_session ended
  obtain ⟨_, bits, spelled, alike⟩ := texts_exact
  have sixSpelled := spelled six (.projection sixth)
  have sevenSpelled := spelled seven (.projection seventh)
  have loneSpelled := spelled lone (.edge reachable built)
  rw [first] at sixSpelled
  rw [second] at sevenSpelled
  rw [third] at loneSpelled
  refine ⟨six, seven, lone, aig, sixth, seventh, reachable, built, first, sixSpelled, second,
    sevenSpelled, (bits 7 5 seven seventh).2.2.1, third, loneSpelled, ?_⟩
  intro other otherBuilt one same
  exact alike other lone otherBuilt (.edge reachable built) (one.trans arity.symm)
    (same.trans third.symm)

end TruthTable

end AndInverter
