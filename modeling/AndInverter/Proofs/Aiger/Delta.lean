import AndInverter.Aiger.Delta
import Mathlib.Tactic.NormNum

/-!
# Deltas are read as they were written

Writing splits a number into groups of seven bits, and reading adds the groups
up again.  As long as the number is a word, no group goes past the limits of
the reader.
-/

namespace AndInverter

namespace Aiger

private theorem group_lt_ten {group value : Nat} (positive : 0 < value)
    (fits : value * 2 ^ (7 * group) < Word.limit) : group < 10 := by
  by_contra late
  have large : 2 ^ 70 ≤ 2 ^ (7 * group) := Nat.pow_le_pow_right (by decide) (by omega)
  have grown : 2 ^ (7 * group) ≤ value * 2 ^ (7 * group) := Nat.le_mul_of_pos_left _ positive
  have limit : Word.limit < 2 ^ 70 := by decide
  omega

theorem shifted_group {byte group : Nat} (fits : byte * 2 ^ (7 * group) < Word.limit) :
    (byte <<< (7 * group)) % Word.limit = byte * 2 ^ (7 * group) := by
  rw [Nat.shiftLeft_eq, Nat.mod_eq_of_lt fits]

/-- Reading the groups of a number adds the number, moved to its place, to what
was read before. -/
theorem decodeGroups_encodeDelta (rest : List UInt8) (group value number : Nat)
    (early : group < 10) (fits : number * 2 ^ (7 * group) < Word.limit) :
    decodeGroups group value (encodeDelta number ++ rest) =
      .ok (value + number * 2 ^ (7 * group), rest) := by
  induction number using encodeDelta.induct generalizing group value with
  | case1 number small =>
      have byte : (UInt8.ofNat number).toNat = number := by
        rw [UInt8.toNat_ofNat']
        omega
      rw [encodeDelta, if_pos small, List.singleton_append, decodeGroups,
        if_neg (Nat.not_le_of_lt early), byte, Nat.mod_eq_of_lt small, shifted_group fits,
        if_pos small]
  | case2 number large induction =>
      have byte : (UInt8.ofNat (number % 128 + 128)).toNat = number % 128 + 128 := by
        rw [UInt8.toNat_ofNat']
        omega
      have own : (number % 128 + 128) % 128 = number % 128 := by omega
      have next : 2 ^ (7 * (group + 1)) = 128 * 2 ^ (7 * group) := by
        rw [Nat.mul_succ, Nat.pow_add, Nat.mul_comm]
      have parts : number * 2 ^ (7 * group) =
          number % 128 * 2 ^ (7 * group) + number / 128 * 2 ^ (7 * (group + 1)) := by
        rw [next, ← Nat.mul_assoc, ← Nat.add_mul]
        congr 1
        omega
      have later : number / 128 * 2 ^ (7 * (group + 1)) < Word.limit := by omega
      have continued := induction (group + 1) (value + number % 128 * 2 ^ (7 * group))
        (group_lt_ten (by omega) later) later
      rw [encodeDelta, if_neg large, List.cons_append, decodeGroups,
        if_neg (Nat.not_le_of_lt early), byte, own, shifted_group (by omega),
        if_neg (by omega)]
      simp only [continued]
      rw [parts, Nat.add_assoc]

/-- A word is read as it was written, and nothing after it is touched. -/
theorem decodeDelta_encodeDelta {number : Nat} (fits : number < Word.limit)
    (rest : List UInt8) : decodeDelta (encodeDelta number ++ rest) = .ok (number, rest) := by
  have read := decodeGroups_encodeDelta rest 0 0 number (by decide) (by simpa using fits)
  simpa [decodeDelta] using read

end Aiger

end AndInverter
