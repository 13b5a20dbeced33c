import AndInverter.Aiger.Delta

/-!
# Deltas in a buffer

Delta coding on machine words.  A word is taken apart and put together again by
masks and shifts, and a buffer is read at an offset that moves past the bytes
that were read.
-/

namespace AndInverter

namespace Aiger

theorem toNat_shiftRight_seven (word : UInt64) : (word >>> 7).toNat = word.toNat / 128 := by
  rw [UInt64.toNat_shiftRight, Nat.shiftRight_eq_div_pow]
  rfl

theorem toNat_and_seven (word : UInt64) : (word &&& 0x7f).toNat = word.toNat % 128 := by
  rw [UInt64.toNat_and]
  exact Nat.and_two_pow_sub_one_eq_mod word.toNat 7

theorem and_not_seven_eq_zero_iff (word : UInt64) :
    word &&& ~~~0x7f = 0 ↔ word.toNat < 128 := by
  have parts : word &&& 0x7f ||| word &&& ~~~0x7f = word := by
    apply UInt64.toBitVec_inj.mp
    rw [UInt64.toBitVec_or, UInt64.toBitVec_and, UInt64.toBitVec_and,
      ← BitVec.and_or_distrib_left]
    exact BitVec.and_allOnes
  constructor
  · intro none
    rw [none, UInt64.or_zero] at parts
    have low := toNat_and_seven word
    rw [parts] at low
    omega
  · intro small
    have low : word &&& 0x7f = word := by
      apply UInt64.toNat_inj.mp
      rw [toNat_and_seven, Nat.mod_eq_of_lt small]
    rw [← low, UInt64.and_assoc]
    simp

/-- The bytes of a word: its lowest seven bits, with the high bit set as long as
there are others. -/
def wordBytes (word : UInt64) : List UInt8 :=
  if word &&& ~~~0x7f = 0 then [word.toUInt8]
  else ((word &&& 0x7f).toUInt8 ||| 0x80) :: wordBytes (word >>> 7)
termination_by word.toNat
decreasing_by
  rename_i more
  rw [and_not_seven_eq_zero_iff] at more
  rw [toNat_shiftRight_seven]
  omega

def byteAt (buffer : List UInt8) (offset : Nat) : Except Failure (UInt8 × Nat) :=
  match buffer[offset]? with
  | some byte => .ok (byte, offset + 1)
  | none => .error (.parse .endOfInput)

/-- Reads the groups from the given one on, into a word that holds the groups
before. -/
def groupsAt (buffer : List UInt8) (group : Nat) (word : UInt64) (offset : Nat) :
    Except Failure (UInt64 × Nat) := do
  let (byte, offset) ← byteAt buffer offset
  if 10 ≤ group then
    .error (.parse .longDelta)
  else
    let word := word ||| (byte &&& 0x7f).toUInt64 <<< (7 * group).toUInt64
    if byte &&& 0x80 = 0 then .ok (word, offset)
    else groupsAt buffer (group + 1) word offset
termination_by 10 - group

def wordAt (buffer : List UInt8) (offset : Nat) : Except Failure (UInt64 × Nat) :=
  groupsAt buffer 0 0 offset

/-- What was read and what is left of a buffer, as a word and an offset. -/
def settle (buffer : List UInt8) : Nat × List UInt8 → UInt64 × Nat
  | (value, rest) => (UInt64.ofNat value, buffer.length - rest.length)

def wordsAt (buffer : List UInt8) : (count offset : Nat) → Except Failure (List UInt64 × Nat)
  | 0, offset => .ok ([], offset)
  | count + 1, offset => do
    let (word, offset) ← wordAt buffer offset
    let (words, offset) ← wordsAt buffer count offset
    return (word :: words, offset)

end Aiger

end AndInverter
