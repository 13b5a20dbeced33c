import AndInverter.Simulation.TruthTable
import Mathlib.Data.List.GetD
import Mathlib.Data.Nat.Count

/-!
# Bits of truth tables

A list of words is read as one row of bits, 64 in each word.  A table fits its
number of variables if it has the words for one bit per assignment and the bits
beyond are zero; then its bits determine it, and it counts those that are set.
-/

namespace AndInverter

/-- The bit of some words in a lane, the lanes being numbered through from the
first word on. -/
def laneBit (words : List (BitVec 64)) (lane : Nat) : Bool :=
  (words.getD (lane / 64) 0).getLsbD (lane % 64)

theorem laneBit_of_length_le {words : List (BitVec 64)} {lane : Nat}
    (beyond : 64 * words.length ≤ lane) : laneBit words lane = false := by
  have outside : words.length ≤ lane / 64 := by omega
  rw [laneBit, List.getD_eq_default _ _ outside]
  exact BitVec.getLsbD_zero

theorem laneBit_head {word : BitVec 64} {rest : List (BitVec 64)} {lane : Nat}
    (inside : lane < 64) : laneBit (word :: rest) lane = word.getLsbD lane := by
  have first : lane / 64 = 0 := by omega
  have place : lane % 64 = lane := by omega
  rw [laneBit, first, place, List.getD_cons_zero]

theorem laneBit_tail (word : BitVec 64) (rest : List (BitVec 64)) (lane : Nat) :
    laneBit (word :: rest) (64 + lane) = laneBit rest lane := by
  have next : (64 + lane) / 64 = lane / 64 + 1 := by omega
  have place : (64 + lane) % 64 = lane % 64 := by omega
  rw [laneBit, laneBit, next, place, List.getD_cons_succ]

theorem laneBit_map {words : List (BitVec 64)} (change : BitVec 64 → BitVec 64) {lane : Nat}
    (inside : lane < 64 * words.length) :
    laneBit (words.map change) lane =
      (change (words.getD (lane / 64) 0)).getLsbD (lane % 64) := by
  have inside : lane / 64 < words.length := by omega
  simp [laneBit, inside]

theorem laneBit_and (left right : List (BitVec 64)) (lane : Nat) :
    laneBit (List.zipWith (· &&& ·) left right) lane =
      (laneBit left lane && laneBit right lane) := by
  simp only [laneBit, List.getD_eq_getElem?_getD, List.getElem?_zipWith]
  cases left[lane / 64]? <;> cases right[lane / 64]? <;> simp

theorem ext_laneBit {left right : List (BitVec 64)} (length : left.length = right.length)
    (lanes : ∀ lane, laneBit left lane = laneBit right lane) : left = right := by
  apply List.ext_getElem length
  intro index inLeft inRight
  apply BitVec.eq_of_getLsbD_eq
  intro place inside
  have same := lanes (64 * index + place)
  have position : (64 * index + place) / 64 = index := by omega
  have remainder : (64 * index + place) % 64 = place := by omega
  simpa [laneBit, position, remainder, inLeft, inRight] using same

private theorem count_congr {first second : Nat → Prop} [DecidablePred first] [DecidablePred second]
    {bound : Nat} (same : ∀ index < bound, first index ↔ second index) :
    Nat.count first bound = Nat.count second bound := by
  apply le_antisymm
  · exact Nat.count_mono_left fun index inside => (same index inside).mp
  · exact Nat.count_mono_left fun index inside => (same index inside).mpr

private theorem toNat_cpop_eq_count (word : BitVec 64) :
    word.cpop.toNat = Nat.count (word.getLsbD · = true) 64 := by
  have counted : ∀ bound, word.cpopNatRec bound 0 = Nat.count (word.getLsbD · = true) bound := by
    intro bound
    induction bound with
    | zero => rfl
    | succ bound induction =>
        rw [BitVec.cpopNatRec_succ, BitVec.cpopNatRec_eq, induction, Nat.count_succ]
        cases word.getLsbD bound <;> simp
  rw [BitVec.toNat_cpop, counted]

theorem foldr_cpop_eq_count (words : List (BitVec 64)) :
    words.foldr (fun word count => word.cpop.toNat + count) 0 =
      Nat.count (laneBit words · = true) (64 * words.length) := by
  induction words with
  | nil => rfl
  | cons word rest induction =>
      have split : 64 * (word :: rest).length = 64 + 64 * rest.length := by
        rw [List.length_cons]
        omega
      have head : Nat.count (laneBit (word :: rest) · = true) 64 =
          Nat.count (word.getLsbD · = true) 64 :=
        count_congr fun lane inside => by rw [laneBit_head inside]
      rw [List.foldr_cons, induction, split, Nat.count_add, head, toNat_cpop_eq_count]
      simp only [laneBit_tail]

namespace TruthTable

theorem wordCount_of_le {arity : Nat} (small : arity ≤ 6) : wordCount arity = 1 :=
  if_pos small

theorem lanes_of_le {arity : Nat} (large : 6 ≤ arity) : 64 * wordCount arity = 2 ^ arity := by
  obtain ⟨more, rfl⟩ := Nat.exists_eq_add_of_le large
  by_cases small : 6 + more ≤ 6
  · have none : more = 0 := by omega
    subst none
    rfl
  · rw [wordCount, if_neg small, Nat.shiftLeft_eq, Nat.one_mul, Nat.add_sub_cancel_left, pow_add]
    rfl

theorem rows_le_lanes (arity : Nat) : 2 ^ arity ≤ 64 * wordCount arity := by
  by_cases large : 6 ≤ arity
  · exact (lanes_of_le large).ge
  · rw [wordCount_of_le (by omega)]
    exact Nat.pow_le_pow_right (by decide) (show arity ≤ 6 by omega)

theorem getLsbD_mask {arity lane : Nat} (inside : lane < 64 * wordCount arity) :
    (mask arity).getLsbD (lane % 64) = decide (lane < 2 ^ arity) := by
  by_cases large : 6 ≤ arity
  · rw [lanes_of_le large] at inside
    have place : lane % 64 < 64 := Nat.mod_lt _ (by decide)
    rw [mask, if_pos large, BitVec.getLsbD_allOnes, decide_eq_decide]
    exact iff_of_true place inside
  · -- One word for up to five variables: few enough to look at every bit.
    rw [wordCount_of_le (by omega)] at inside
    have small : ∀ arity < 6, ∀ lane < 64,
        (mask arity).getLsbD lane = decide (lane < 2 ^ arity) := by decide +kernel
    have place : lane % 64 = lane := by omega
    rw [place]
    exact small arity (by omega) lane (by omega)

theorem getLsbD_variableWords {index : Nat} {word : BitVec 64}
    (varies : variableWords[index]? = some word) {lane : Nat} (inside : lane < 64) :
    word.getLsbD lane = lane.testBit index := by
  have bounded : index < 6 := (List.getElem?_eq_some_iff.mp varies).1
  have all : ∀ index < 6, ∀ lane < 64,
      (variableWords.getD index 0).getLsbD lane = lane.testBit index := by decide +kernel
  have same := all index bounded lane inside
  rwa [List.getD_eq_getElem?_getD, varies, Option.getD_some] at same

theorem getLsbD_projectionWord {arity lane : Nat} (index : Nat) (inside : lane < 2 ^ arity) :
    (projectionWord arity index (lane / 64)).getLsbD (lane % 64) = lane.testBit index := by
  -- The lowest six bits of a lane are its place in the word; the others number the word.
  have place : lane % 64 < 2 ^ 6 := Nat.mod_lt _ (by decide)
  have bits := Nat.testBit_two_pow_mul_add (lane / 64) place index
  rw [Nat.div_add_mod] at bits
  rw [bits, projectionWord]
  cases varies : variableWords[index]? with
  | none =>
      have whole : 6 ≤ index := List.getElem?_eq_none_iff.mp varies
      rw [if_neg (Nat.not_lt.mpr whole)]
      cases (lane / 64).testBit (index - 6) with
      | false => exact BitVec.getLsbD_zero
      | true => exact (BitVec.getLsbD_allOnes ..).trans (decide_eq_true place)
  | some word =>
      have low : index < 6 := (List.getElem?_eq_some_iff.mp varies).1
      have used := getLsbD_mask (lt_of_lt_of_le inside (rows_le_lanes arity))
      simp [low, used, inside, getLsbD_variableWords varies place]

theorem laneBit_projection {arity lane : Nat} (index : Nat) (inside : lane < 2 ^ arity) :
    laneBit ((List.range (wordCount arity)).map (projectionWord arity index)) lane =
      lane.testBit index := by
  have within : lane / 64 < wordCount arity := by
    have := rows_le_lanes arity
    omega
  rw [laneBit, List.getD_eq_getElem?_getD]
  simp [within, getLsbD_projectionWord index inside]

/-- A table has the words for one bit per assignment, and the bits beyond are
zero. -/
structure Fits (table : TruthTable) : Prop where
  length : table.words.length = wordCount table.arity
  unused : ∀ lane, 2 ^ table.arity ≤ lane → laneBit table.words lane = false

theorem laneBit_ofWords {arity : Nat} {words : List (BitVec 64)}
    (length : words.length = wordCount arity) (lane : Nat) :
    laneBit (ofWords arity words).words lane =
      (decide (lane < 2 ^ arity) && laneBit words lane) := by
  by_cases inside : lane < 64 * wordCount arity
  · rw [ofWords, laneBit_map _ (length ▸ inside), BitVec.getLsbD_and, getLsbD_mask inside,
      Bool.and_comm, laneBit]
  · have beyond : 64 * words.length ≤ lane := by
      rw [length]
      omega
    have masked : 64 * (ofWords arity words).words.length ≤ lane := by
      rw [ofWords, List.length_map]
      exact beyond
    rw [laneBit_of_length_le masked, laneBit_of_length_le beyond, Bool.and_false]

theorem fits_ofWords {arity : Nat} {words : List (BitVec 64)}
    (length : words.length = wordCount arity) : (ofWords arity words).Fits := by
  refine ⟨by rw [ofWords, List.length_map, length], ?_⟩
  intro lane beyond
  have outside : ¬ lane < 2 ^ arity := Nat.not_lt.mpr beyond
  simp [laneBit_ofWords length, outside]

theorem bit_of_lt {table : TruthTable} {lane : Nat} (inside : lane < 64 * table.words.length) :
    table.bit lane = .ok (laneBit table.words lane) := by
  have within : lane / 64 < table.words.length := by omega
  simp [bit, laneBit, within]

theorem bit_of_fits {table : TruthTable} (fits : table.Fits) {row : Nat}
    (inside : row < 2 ^ table.arity) : table.bit row = .ok (laneBit table.words row) := by
  apply bit_of_lt
  rw [fits.length]
  exact inside.trans_le (rows_le_lanes table.arity)

theorem countOnes_of_fits {table : TruthTable} (fits : table.Fits) :
    table.countOnes = Nat.count (laneBit table.words · = true) (2 ^ table.arity) := by
  obtain ⟨unused, lanes⟩ := Nat.exists_eq_add_of_le (rows_le_lanes table.arity)
  rw [countOnes, foldr_cpop_eq_count, fits.length, lanes, Nat.count_add]
  simp [fits.unused]

theorem ext_of_fits {left right : TruthTable} (leftFits : left.Fits) (rightFits : right.Fits)
    (arity : left.arity = right.arity)
    (rows : ∀ row, row < 2 ^ left.arity → laneBit left.words row = laneBit right.words row) :
    left = right := by
  have length : left.words.length = right.words.length := by
    rw [leftFits.length, rightFits.length, arity]
  have words : left.words = right.words := by
    apply ext_laneBit length
    intro lane
    by_cases inside : lane < 2 ^ left.arity
    · exact rows lane inside
    · have beyond := Nat.not_lt.mp inside
      rw [leftFits.unused lane beyond, rightFits.unused lane (arity ▸ beyond)]
  cases left
  cases right
  cases arity
  cases words
  rfl

end TruthTable

end AndInverter
