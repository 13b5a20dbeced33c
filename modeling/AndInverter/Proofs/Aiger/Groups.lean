import AndInverter.Proofs.Aiger.Delta
import Mathlib.Data.Nat.Digits.Defs

/-!
# What a delta reads

The groups of a number are its digits in base 128, and the first byte without
its high bit ends it.  Reading takes ten bytes at most and adds up what the
groups say, but a word has room for one bit only of a tenth group.  So the
number that is read is the number that stands there, unless there is a tenth
byte above 1: then only the remainder by 2^64 is left.
-/

namespace AndInverter

namespace Aiger

/-- The bytes of one number: all but the last have their high bit set. -/
inductive Delimited : List UInt8 → Prop
  | last {byte : UInt8} (low : byte.toNat < 128) : Delimited [byte]
  | more {byte : UInt8} {bytes : List UInt8} (high : 128 ≤ byte.toNat)
      (rest : Delimited bytes) : Delimited (byte :: bytes)

/-- The number that bytes stand for: each adds seven bits, the lowest first. -/
def groupsValue (bytes : List UInt8) : Nat :=
  Nat.ofDigits 128 (bytes.map fun byte => byte.toNat % 128)

@[simp] private theorem groupsValue_nil : groupsValue [] = 0 :=
  rfl

private theorem groupsValue_cons (byte : UInt8) (bytes : List UInt8) :
    groupsValue (byte :: bytes) = byte.toNat % 128 + 128 * groupsValue bytes := by
  rw [groupsValue, List.map_cons, Nat.ofDigits_cons, groupsValue]

private theorem groupsValue_append (bytes more : List UInt8) :
    groupsValue (bytes ++ more) =
      groupsValue bytes + 128 ^ bytes.length * groupsValue more := by
  rw [groupsValue, List.map_append, Nat.ofDigits_append, List.length_map, groupsValue,
    groupsValue]

theorem groupsValue_lt (bytes : List UInt8) : groupsValue bytes < 128 ^ bytes.length := by
  induction bytes with
  | nil => decide
  | cons byte bytes induction =>
      have group : byte.toNat % 128 < 128 := Nat.mod_lt _ (by decide)
      rw [groupsValue_cons, List.length_cons, Nat.pow_succ]
      omega

theorem Delimited.length_pos {bytes : List UInt8} (delimited : Delimited bytes) :
    0 < bytes.length := by
  cases delimited <;> exact Nat.succ_pos _

theorem delimited_iff {bytes : List UInt8} :
    Delimited bytes ↔ ∃ front last, bytes = front ++ [last] ∧
      (∀ byte ∈ front, 128 ≤ byte.toNat) ∧ last.toNat < 128 := by
  constructor
  · intro delimited
    induction delimited with
    | @last byte low => exact ⟨[], byte, rfl, nofun, low⟩
    | @more byte bytes high _ induction =>
        obtain ⟨front, last, rfl, above, low⟩ := induction
        exact ⟨byte :: front, last, rfl, List.forall_mem_cons.mpr ⟨high, above⟩, low⟩
  · rintro ⟨front, last, rfl, above, low⟩
    induction front with
    | nil => exact .last low
    | cons byte front induction =>
        rw [List.forall_mem_cons] at above
        exact .more above.1 (induction above.2)

theorem exists_delimited_or_cut (bytes : List UInt8) :
    (∃ front rest, bytes = front ++ rest ∧ Delimited front) ∨
      ∀ byte ∈ bytes, 128 ≤ byte.toNat := by
  induction bytes with
  | nil => exact .inr nofun
  | cons byte bytes induction =>
      by_cases low : byte.toNat < 128
      · exact .inl ⟨[byte], bytes, rfl, .last low⟩
      · have high : 128 ≤ byte.toNat := Nat.le_of_not_lt low
        rcases induction with ⟨front, rest, rfl, delimited⟩ | cut
        · exact .inl ⟨byte :: front, rest, rfl, .more high delimited⟩
        · exact .inr (List.forall_mem_cons.mpr ⟨high, cut⟩)

/-! ### Reading -/

private theorem add_shifted_mod {value place : Nat} (number : Nat) (small : value < 2 ^ place)
    (inside : place ≤ 64) :
    value + number * 2 ^ place % Word.limit = (value + number * 2 ^ place) % Word.limit := by
  have limit : Word.limit = 2 ^ (64 - place) * 2 ^ place := by
    rw [← Nat.pow_add, Nat.sub_add_cancel inside]
    rfl
  have kept : number * 2 ^ place % Word.limit = number % 2 ^ (64 - place) * 2 ^ place := by
    rw [limit, Nat.mul_mod_mul_right]
  have room : (number % 2 ^ (64 - place) + 1) * 2 ^ place ≤ Word.limit := by
    rw [limit]
    exact Nat.mul_le_mul_right _ (Nat.mod_lt _ (Nat.two_pow_pos _))
  have fits : value + number * 2 ^ place % Word.limit < Word.limit := by
    rw [kept]
    rw [Nat.add_mul, Nat.one_mul] at room
    omega
  rw [← Nat.add_mod_mod, Nat.mod_eq_of_lt fits]

private theorem shifted_early_group (byte : UInt8) {group : Nat} (early : group < 9) :
    ((byte.toNat % 128) <<< (7 * group)) % Word.limit = byte.toNat % 128 * 2 ^ (7 * group) := by
  apply shifted_group
  have below : byte.toNat % 128 < 2 ^ 7 := Nat.mod_lt _ (by decide)
  calc byte.toNat % 128 * 2 ^ (7 * group)
      < 2 ^ 7 * 2 ^ (7 * group) := Nat.mul_lt_mul_of_pos_right below (Nat.two_pow_pos _)
    _ = 2 ^ (7 * (group + 1)) := by rw [← Nat.pow_add, Nat.mul_succ, Nat.add_comm]
    _ ≤ 2 ^ 63 := Nat.pow_le_pow_right (by decide) (by omega)
    _ < Word.limit := by decide

/-- The value of the groups before a place lies below it, and so it does once
the next group is added. -/
theorem add_group_lt (byte : UInt8) {value group : Nat} (small : value < 2 ^ (7 * group)) :
    value + byte.toNat % 128 * 2 ^ (7 * group) < 2 ^ (7 * (group + 1)) := by
  have below : byte.toNat % 128 + 1 ≤ 128 := Nat.mod_lt _ (by decide)
  have next : 2 ^ (7 * (group + 1)) = 128 * 2 ^ (7 * group) := by
    rw [Nat.mul_succ, Nat.pow_add, Nat.mul_comm]
  have room : (byte.toNat % 128 + 1) * 2 ^ (7 * group) ≤ 128 * 2 ^ (7 * group) :=
    Nat.mul_le_mul_right _ below
  rw [Nat.add_mul, Nat.one_mul] at room
  omega

/-- A number that ends within ten bytes is read, up to a multiple of 2^64. -/
theorem decodeGroups_of_delimited {bytes : List UInt8} (delimited : Delimited bytes)
    (rest : List UInt8) {group value : Nat} (within : group + bytes.length ≤ 10)
    (small : value < 2 ^ (7 * group)) :
    decodeGroups group value (bytes ++ rest) =
      .ok ((value + groupsValue bytes * 2 ^ (7 * group)) % Word.limit, rest) := by
  induction delimited generalizing group value with
  | @last byte low =>
      rw [List.length_singleton] at within
      have inside : 7 * group ≤ 64 := by omega
      rw [List.singleton_append, decodeGroups, if_neg (by omega), if_pos low, Nat.shiftLeft_eq,
        add_shifted_mod _ small inside]
      rfl
  | @more byte bytes high delimited induction =>
      have later := delimited.length_pos
      rw [List.length_cons] at within
      have next : 2 ^ (7 * (group + 1)) = 128 * 2 ^ (7 * group) := by
        rw [Nat.mul_succ, Nat.pow_add, Nat.mul_comm]
      have sum : value + groupsValue (byte :: bytes) * 2 ^ (7 * group) =
          value + byte.toNat % 128 * 2 ^ (7 * group) +
            groupsValue bytes * 2 ^ (7 * (group + 1)) := by
        rw [groupsValue_cons, next]
        ring
      rw [List.cons_append, decodeGroups, if_neg (by omega), if_neg (Nat.not_lt.mpr high),
        shifted_early_group byte (by omega), sum]
      exact induction (by omega) (add_group_lt byte small)

theorem decodeGroups_of_cut {bytes : List UInt8} (cut : ∀ byte ∈ bytes, 128 ≤ byte.toNat)
    {group : Nat} (within : group + bytes.length ≤ 10) (value : Nat) :
    decodeGroups group value bytes = .error (.parse .endOfInput) := by
  induction bytes generalizing group value with
  | nil => rfl
  | cons byte bytes induction =>
      rw [List.forall_mem_cons] at cut
      rw [List.length_cons] at within
      rw [decodeGroups, if_neg (by omega), if_neg (Nat.not_lt.mpr cut.1)]
      exact induction cut.2 (by omega) _

theorem decodeGroups_of_long {front : List UInt8} (high : ∀ byte ∈ front, 128 ≤ byte.toNat)
    (byte : UInt8) (rest : List UInt8) {group : Nat} (reached : group + front.length = 10)
    (value : Nat) : decodeGroups group value (front ++ byte :: rest) =
      .error (.parse .longDelta) := by
  induction front generalizing group value with
  | nil =>
      rw [List.length_nil] at reached
      rw [List.nil_append, decodeGroups, if_pos (by omega)]
  | cons first front induction =>
      rw [List.forall_mem_cons] at high
      rw [List.length_cons] at reached
      rw [List.cons_append, decodeGroups, if_neg (by omega), if_neg (Nat.not_lt.mpr high.1)]
      exact induction high.2 (by omega) _

theorem decodeDelta_of_long {bytes : List UInt8} (long : 10 < bytes.length)
    (high : ∀ byte ∈ bytes.take 10, 128 ≤ byte.toNat) :
    decodeDelta bytes = .error (.parse .longDelta) := by
  have reached : 0 + (bytes.take 10).length = 10 := by
    rw [List.length_take]
    omega
  have read := decodeGroups_of_long high bytes[10] (bytes.drop 11) reached 0
  rwa [← List.drop_eq_getElem_cons long, List.take_append_drop] at read

theorem decodeDelta_of_delimited {bytes : List UInt8} (delimited : Delimited bytes)
    (rest : List UInt8) (within : bytes.length ≤ 10) :
    decodeDelta (bytes ++ rest) = .ok (groupsValue bytes % Word.limit, rest) := by
  have bound : 0 + bytes.length ≤ 10 := by omega
  have start : 0 < 2 ^ (7 * 0) := by decide
  have read := decodeGroups_of_delimited delimited rest bound start
  simpa [decodeDelta] using read

theorem decodeDelta_of_overlong {bytes : List UInt8} (delimited : Delimited bytes)
    (rest : List UInt8) (long : 10 < bytes.length) :
    decodeDelta (bytes ++ rest) = .error (.parse .longDelta) := by
  obtain ⟨front, last, rfl, high, _⟩ := delimited_iff.mp delimited
  rw [List.length_append, List.length_singleton] at long
  apply decodeDelta_of_long
  · rw [List.length_append, List.length_append, List.length_singleton]
    omega
  · intro byte member
    rw [List.append_assoc, List.take_append_of_le_length (by omega)] at member
    exact high byte (List.mem_of_mem_take member)

theorem decodeDelta_of_cut {bytes : List UInt8} (cut : ∀ byte ∈ bytes, 128 ≤ byte.toNat) :
    decodeDelta bytes =
      .error (.parse (if bytes.length ≤ 10 then .endOfInput else .longDelta)) := by
  split
  · rename_i within
    exact decodeGroups_of_cut cut (by omega) 0
  · rename_i long
    exact decodeDelta_of_long (Nat.lt_of_not_le long) fun byte member =>
      cut byte (List.mem_of_mem_take member)

/-- Ten groups make a word if the last of them is at most 1, and fewer always
do. -/
theorem groupsValue_lt_limit_iff {bytes : List UInt8} (delimited : Delimited bytes)
    (within : bytes.length ≤ 10) :
    groupsValue bytes < Word.limit ↔ ∀ tenth, bytes[9]? = some tenth → tenth.toNat ≤ 1 := by
  obtain ⟨front, last, rfl, _, low⟩ := delimited_iff.mp delimited
  rw [List.length_append, List.length_singleton] at within
  have place : Word.limit = 2 * 128 ^ 9 := by decide
  have value : groupsValue (front ++ [last]) =
      groupsValue front + 128 ^ front.length * last.toNat := by
    rw [groupsValue_append, groupsValue_cons, groupsValue_nil, Nat.mul_zero, Nat.add_zero,
      Nat.mod_eq_of_lt low]
  have below := groupsValue_lt front
  by_cases full : front.length = 9
  · have tenth : (front ++ [last])[9]? = some last := by
      rw [← full, List.getElem?_concat_length]
    rw [value, tenth, place, full]
    rw [full] at below
    constructor
    · rintro fits _ ⟨⟩
      by_contra above
      have large : 128 ^ 9 * 2 ≤ 128 ^ 9 * last.toNat := Nat.mul_le_mul_left _ (by omega)
      omega
    · intro small
      have bound : 128 ^ 9 * last.toNat ≤ 128 ^ 9 * 1 := Nat.mul_le_mul_left _ (small last rfl)
      omega
  · have short : (front ++ [last]).length ≤ 9 := by
      rw [List.length_append, List.length_singleton]
      omega
    have powers : 128 ^ (front ++ [last]).length ≤ 128 ^ 9 :=
      Nat.pow_le_pow_right (by decide) short
    have fits : groupsValue (front ++ [last]) < Word.limit := by
      have bound := groupsValue_lt (front ++ [last])
      omega
    have none : (front ++ [last])[9]? = none := List.getElem?_eq_none short
    rw [none]
    exact ⟨fun _ => nofun, fun _ => fits⟩

/-- What is read from any offset of any buffer.  A number is read exactly if
it ends within ten bytes, and what is read is its remainder by 2^64.  That is
the number itself exactly if no tenth byte is above 1.  Numbers that do not
end, or end later, are refused. -/
theorem decodeDelta_reads (buffer : List UInt8) (offset : Nat) :
    (∀ value rest, decodeDelta (buffer.drop offset) = .ok (value, rest) ↔
      ∃ bytes, buffer.drop offset = bytes ++ rest ∧ Delimited bytes ∧ bytes.length ≤ 10 ∧
        value = groupsValue bytes % Word.limit) ∧
    (∀ bytes, Delimited bytes → bytes.length ≤ 10 →
      (groupsValue bytes % Word.limit = groupsValue bytes ↔
        ∀ tenth, bytes[9]? = some tenth → tenth.toNat ≤ 1)) ∧
    (∀ bytes rest, buffer.drop offset = bytes ++ rest → Delimited bytes → 10 < bytes.length →
      decodeDelta (buffer.drop offset) = .error (.parse .longDelta)) ∧
    ((∀ byte ∈ buffer.drop offset, 128 ≤ byte.toNat) →
      decodeDelta (buffer.drop offset) =
        .error (.parse (if (buffer.drop offset).length ≤ 10 then .endOfInput else .longDelta))) := by
  refine ⟨?_, ?_, ?_, decodeDelta_of_cut⟩
  · intro value rest
    constructor
    · intro read
      rcases exists_delimited_or_cut (buffer.drop offset) with
        ⟨bytes, after, parts, delimited⟩ | cut
      · rw [parts] at read ⊢
        by_cases within : bytes.length ≤ 10
        · rw [decodeDelta_of_delimited delimited after within] at read
          cases read
          exact ⟨bytes, rfl, delimited, within, rfl⟩
        · rw [decodeDelta_of_overlong delimited after (Nat.lt_of_not_le within)] at read
          cases read
      · rw [decodeDelta_of_cut cut] at read
        cases read
    · rintro ⟨bytes, parts, delimited, within, rfl⟩
      rw [parts, decodeDelta_of_delimited delimited rest within]
  · intro bytes delimited within
    rw [← groupsValue_lt_limit_iff delimited within]
    exact Nat.mod_eq_iff_lt (Nat.two_pow_pos 64).ne'
  · intro bytes rest parts delimited long
    rw [parts, decodeDelta_of_overlong delimited rest long]

/-- Two with its tenth group set to 2, which adds 2^64. -/
def overflowingDelta : List UInt8 :=
  [0x82, 0x80, 0x80, 0x80, 0x80, 0x80, 0x80, 0x80, 0x80, 0x02]

theorem delimited_overflowingDelta : Delimited overflowingDelta :=
  delimited_iff.mpr ⟨[0x82, 0x80, 0x80, 0x80, 0x80, 0x80, 0x80, 0x80, 0x80], 0x02, rfl,
    by simp, by decide⟩

/-- Behind another byte, the overflowing delta is read as 2, and what follows
is left. -/
theorem decodeDelta_reads_overflowing :
    Delimited overflowingDelta ∧ overflowingDelta.length ≤ 10 ∧
      decodeDelta ((0xff :: overflowingDelta ++ [0x06]).drop 1) = .ok (2, [0x06]) ∧
      groupsValue overflowingDelta % Word.limit ≠ groupsValue overflowingDelta := by
  obtain ⟨accepted, exact_iff, _⟩ := decodeDelta_reads (0xff :: overflowingDelta ++ [0x06]) 1
  refine ⟨delimited_overflowingDelta, by decide, ?_, ?_⟩
  · exact (accepted 2 [0x06]).mpr
      ⟨overflowingDelta, rfl, delimited_overflowingDelta, by decide, by decide⟩
  · intro same
    have small := (exact_iff overflowingDelta delimited_overflowingDelta (by decide)).mp same
    exact absurd (small 0x02 rfl) (by decide)

/-- A number of 2^64 or more is not always refused: this one is read as 2. -/
theorem not_decodeDelta_exact : ∃ bytes value, Delimited bytes ∧
    Word.limit ≤ groupsValue bytes ∧ decodeDelta bytes = .ok (value, []) ∧
      value ≠ groupsValue bytes :=
  ⟨overflowingDelta, 2, delimited_overflowingDelta, by decide, by decide, by decide⟩

end Aiger

end AndInverter
