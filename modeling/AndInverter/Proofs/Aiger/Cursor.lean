import AndInverter.Aiger.Cursor
import AndInverter.Proofs.Aiger.Groups

/-!
# Words are read from a buffer as they were written

Masks and shifts on words do what division by 128 does on numbers, so a word is
written as its number, and reading at an offset is reading what is left of the
buffer there.  Written words are read back from any place of any buffer.
-/

namespace AndInverter

namespace Aiger

/-! ### Writing -/

private theorem encodeDelta_of_lt {value : Nat} (small : value < 128) :
    encodeDelta value = [UInt8.ofNat value] := by
  rw [encodeDelta, if_pos small]

private theorem encodeDelta_of_le {value : Nat} (large : 128 ≤ value) :
    encodeDelta value = UInt8.ofNat (value % 128 + 128) :: encodeDelta (value / 128) := by
  rw [encodeDelta, if_neg (Nat.not_lt.mpr large)]

private theorem toNat_or_high {byte : UInt8} (low : byte.toNat < 128) :
    (byte ||| 0x80).toNat = byte.toNat + 128 := by
  rw [UInt8.toNat_or, Nat.or_comm, Nat.add_comm]
  exact (Nat.two_pow_add_eq_or_of_lt (i := 7) low 1).symm

theorem wordBytes_eq (word : UInt64) : wordBytes word = encodeDelta word.toNat := by
  induction word using wordBytes.induct with
  | case1 word none =>
      have small := (and_not_seven_eq_zero_iff word).mp none
      rw [wordBytes, if_pos none, encodeDelta_of_lt small]
      rfl
  | case2 word more induction =>
      have large := Nat.not_lt.mp ((and_not_seven_eq_zero_iff word).not.mp more)
      have payload : (word &&& 0x7f).toUInt8.toNat = word.toNat % 128 := by
        rw [UInt64.toNat_toUInt8, toNat_and_seven]
        omega
      have first : (word &&& 0x7f).toUInt8 ||| 0x80 = UInt8.ofNat (word.toNat % 128 + 128) := by
        apply UInt8.toNat_inj.mp
        rw [toNat_or_high (by omega), payload, UInt8.toNat_ofNat']
        omega
      rw [wordBytes, if_neg more, induction, encodeDelta_of_le large, first,
        toNat_shiftRight_seven]

theorem length_encodeDelta_le {count value : Nat} (small : value < 128 ^ (count + 1)) :
    (encodeDelta value).length ≤ count + 1 := by
  induction count generalizing value with
  | zero =>
      rw [encodeDelta_of_lt (by simpa using small)]
      exact le_rfl
  | succ count induction =>
      by_cases low : value < 128
      · rw [encodeDelta_of_lt low, List.length_singleton]
        omega
      · have below : value / 128 < 128 ^ (count + 1) := by
          apply Nat.div_lt_of_lt_mul
          rwa [Nat.mul_comm, ← Nat.pow_succ]
        rw [encodeDelta_of_le (Nat.not_lt.mp low), List.length_cons]
        exact Nat.succ_le_succ (induction below)

theorem length_wordBytes_le (word : UInt64) : (wordBytes word).length ≤ 10 := by
  rw [wordBytes_eq]
  apply length_encodeDelta_le
  exact word.toNat_lt.trans (by decide)

/-! ### Reading -/

private theorem byte_and_high_eq_zero_iff (byte : UInt8) :
    byte &&& 0x80 = 0 ↔ byte.toNat < 128 := by
  have all : ∀ value < 256, UInt8.ofNat value &&& 0x80 = 0 ↔ value < 128 := by decide +kernel
  have here := all byte.toNat byte.toNat_lt
  rwa [UInt8.ofNat_toNat] at here

private theorem toNat_byte_and_seven (byte : UInt8) :
    (byte &&& 0x7f).toUInt64.toNat = byte.toNat % 128 := by
  rw [UInt8.toNat_toUInt64, UInt8.toNat_and]
  exact Nat.and_two_pow_sub_one_eq_mod byte.toNat 7

/-- Putting a group into a word that lies below its place adds what the word
has room for. -/
private theorem toNat_or_group {word : UInt64} {group : Nat} (byte : UInt8) (early : group < 10)
    (small : word.toNat < 2 ^ (7 * group)) :
    (word ||| (byte &&& 0x7f).toUInt64 <<< (7 * group).toUInt64).toNat =
      word.toNat + ((byte.toNat % 128) <<< (7 * group)) % Word.limit := by
  have place : (7 * group).toUInt64.toNat % 64 = 7 * group := by
    rw [Nat.toUInt64_eq, UInt64.toNat_ofNat']
    omega
  have limit : Word.limit = 2 ^ (64 - 7 * group) * 2 ^ (7 * group) := by
    rw [← Nat.pow_add, Nat.sub_add_cancel (by omega)]
    rfl
  have kept : ((byte.toNat % 128) <<< (7 * group)) % 2 ^ 64 =
      2 ^ (7 * group) * (byte.toNat % 128 % 2 ^ (64 - 7 * group)) := by
    rw [Nat.shiftLeft_eq]
    show _ % Word.limit = _
    rw [limit, Nat.mul_mod_mul_right, Nat.mul_comm]
  rw [UInt64.toNat_or, UInt64.toNat_shiftLeft, toNat_byte_and_seven, place]
  show _ = _ + _ % 2 ^ 64
  rw [kept, Nat.or_comm, ← Nat.two_pow_add_eq_or_of_lt small, Nat.add_comm]

private theorem add_group_mod_lt (byte : UInt8) {value group : Nat}
    (small : value < 2 ^ (7 * group)) :
    value + ((byte.toNat % 128) <<< (7 * group)) % Word.limit < 2 ^ (7 * (group + 1)) := by
  have whole := add_group_lt byte small
  have reduced := Nat.mod_le ((byte.toNat % 128) <<< (7 * group)) Word.limit
  rw [Nat.shiftLeft_eq] at reduced ⊢
  omega

theorem groupsAt_eq (buffer : List UInt8) (group : Nat) (word : UInt64) (offset : Nat)
    (small : word.toNat < 2 ^ (7 * group)) :
    groupsAt buffer group word offset =
      settle buffer <$> decodeGroups group word.toNat (buffer.drop offset) := by
  induction group, word, offset using groupsAt.induct with
  | case1 group word offset induction =>
      rw [groupsAt, byteAt]
      cases present : buffer[offset]? with
      | none =>
          have past : buffer.length ≤ offset := List.getElem?_eq_none_iff.mp present
          rw [List.drop_eq_nil_of_le past]
          rfl
      | some byte =>
          obtain ⟨inside, here⟩ := List.getElem?_eq_some_iff.mp present
          rw [List.drop_eq_getElem_cons inside, here, decodeGroups]
          show (if 10 ≤ group then _ else _) = _
          by_cases late : 10 ≤ group
          · rw [if_pos late, if_pos late]
            rfl
          · rw [if_neg late, if_neg late]
            have early : group < 10 := Nat.lt_of_not_le late
            have sum := toNat_or_group byte early small
            have bounded := add_group_mod_lt byte small
            rw [← sum] at bounded
            dsimp only
            rw [← sum]
            by_cases last : byte.toNat < 128
            · rw [if_pos ((byte_and_high_eq_zero_iff byte).mpr last), if_pos last]
              have behind : offset + 1 = buffer.length - (buffer.drop (offset + 1)).length := by
                rw [List.length_drop]
                omega
              show Except.ok _ = Except.ok _
              rw [settle, UInt64.ofNat_toNat, ← behind]
            · rw [if_neg ((byte_and_high_eq_zero_iff byte).not.mpr last), if_neg last]
              exact induction byte (offset + 1) late bounded

private theorem wordAt_eq (buffer : List UInt8) (offset : Nat) :
    wordAt buffer offset = settle buffer <$> decodeDelta (buffer.drop offset) :=
  groupsAt_eq buffer 0 0 offset (by decide)

/-- A written word is read from wherever it stands, and the offset moves past
its bytes. -/
theorem wordAt_wordBytes (before after : List UInt8) (word : UInt64) :
    wordAt (before ++ wordBytes word ++ after) before.length =
      .ok (word, before.length + (wordBytes word).length) := by
  have remaining : (before ++ wordBytes word ++ after).drop before.length =
      wordBytes word ++ after := by
    rw [List.append_assoc, List.drop_left]
  have behind : (before ++ wordBytes word ++ after).length - after.length =
      before.length + (wordBytes word).length := by
    simp only [List.length_append]
    omega
  rw [wordAt_eq, remaining, wordBytes_eq, decodeDelta_encodeDelta word.toNat_lt,
    ← wordBytes_eq]
  show Except.ok _ = Except.ok _
  rw [settle, UInt64.ofNat_toNat, behind]

theorem wordsAt_flatMap (before after : List UInt8) (words : List UInt64) :
    wordsAt (before ++ words.flatMap wordBytes ++ after) words.length before.length =
      .ok (words, before.length + (words.flatMap wordBytes).length) := by
  induction words generalizing before with
  | nil => rfl
  | cons word words induction =>
      have first := wordAt_wordBytes before (words.flatMap wordBytes ++ after) word
      have others := induction (before ++ wordBytes word)
      rw [List.length_append] at others
      simp only [List.flatMap_cons, List.length_cons, List.length_append, List.append_assoc]
        at first others ⊢
      rw [wordsAt, first]
      show (wordsAt _ _ _ >>= _) = _
      rw [others, Nat.add_assoc]
      rfl

/-- Delta coding loses nothing.  A written word is read back from wherever it
stands in a buffer, and the offset then stands behind its bytes, of which there
are ten at most; so words that are written one after the other are read back in
order.  Words and offsets tell the same as numbers and what is left of the
buffer. -/
theorem words_roundTrip :
    (∀ (before after : List UInt8) (word : UInt64),
      wordAt (before ++ wordBytes word ++ after) before.length =
        .ok (word, before.length + (wordBytes word).length) ∧
      (wordBytes word).length ≤ 10) ∧
    (∀ (before after : List UInt8) (words : List UInt64),
      wordsAt (before ++ words.flatMap wordBytes ++ after) words.length before.length =
        .ok (words, before.length + (words.flatMap wordBytes).length)) ∧
    (∀ word : UInt64, wordBytes word = encodeDelta word.toNat) ∧
    ∀ (buffer : List UInt8) (offset : Nat),
      wordAt buffer offset = settle buffer <$> decodeDelta (buffer.drop offset) := by
  refine ⟨?_, wordsAt_flatMap, wordBytes_eq, wordAt_eq⟩
  intro before after word
  exact ⟨wordAt_wordBytes before after word, length_wordBytes_le word⟩

end Aiger

end AndInverter
