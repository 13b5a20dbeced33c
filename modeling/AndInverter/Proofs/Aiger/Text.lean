import AndInverter.Aiger.Grammar
import Mathlib.Data.List.Basic

/-!
# Lines, tokens and numbers

The readers of lines and numbers succeed exactly on what the grammar calls a
line or a number, and return what it spells.  What is written as a decimal
number or as words between blanks is read back.
-/

namespace AndInverter

namespace Aiger

/-! ### The bytes of a text -/

private theorem toList_loop (bytes : ByteArray) (index : Nat) (listed : List UInt8) :
    ByteArray.toList.loop bytes index listed =
      listed.reverse ++ bytes.data.toList.drop index := by
  fun_induction ByteArray.toList.loop bytes index listed with
  | case1 index listed inside induction =>
      have next : index < bytes.data.toList.length := inside
      rw [induction, List.drop_eq_getElem_cons next]
      simp [ByteArray.get!, inside]
  | case2 index listed outside =>
      have ended : bytes.data.toList.length ≤ index := Nat.le_of_not_lt outside
      rw [List.drop_eq_nil_of_le ended, List.append_nil]

private theorem toList_eq_data (bytes : ByteArray) : bytes.toList = bytes.data.toList :=
  toList_loop bytes 0 []

theorem toUTF8_append (first second : String) :
    (first ++ second).toUTF8.toList = first.toUTF8.toList ++ second.toUTF8.toList := by
  simp only [toList_eq_data, String.toUTF8_eq_toByteArray, String.toByteArray_append]
  exact ByteArray.toList_data_append

theorem toUTF8_eq_flatMap (text : String) :
    text.toUTF8.toList = text.toList.flatMap String.utf8EncodeChar := by
  rw [toList_eq_data, String.toUTF8_eq_toByteArray, ← String.utf8Encode_toList, List.utf8Encode,
    List.toList_data_toByteArray]

/-- Of all characters only a line feed is written with the byte of a line
feed. -/
theorem lineFeed_mem_encoding {character : Char} :
    0x0A ∈ String.utf8EncodeChar character ↔ character = '\n' := by
  constructor
  · intro member
    apply Char.toNat_inj.mp
    show character.val.toNat = 10
    unfold String.utf8EncodeChar at member
    dsimp only at member
    split_ifs at member <;>
      simp only [List.mem_cons, List.not_mem_nil, or_false, ← UInt8.toNat_inj,
        UInt8.toNat_ofNat', UInt8.reduceToNat] at member <;>
      omega
  · rintro rfl
    decide

theorem lineFeed_mem_toUTF8 {text : String} :
    0x0A ∈ text.toUTF8.toList ↔ '\n' ∈ text.toList := by
  rw [toUTF8_eq_flatMap, List.mem_flatMap]
  simp only [lineFeed_mem_encoding, exists_eq_right]

/-! ### Lines -/

private theorem splitLine_of_not_mem {body : List UInt8} (noFeed : 0x0A ∉ body) :
    splitLine body = (body, []) := by
  induction body with
  | nil => rfl
  | cons byte body induction =>
      simp only [List.mem_cons, not_or] at noFeed
      rw [splitLine, if_neg (Ne.symm noFeed.1), induction noFeed.2]

private theorem splitLine_append {body : List UInt8} (rest : List UInt8) (noFeed : 0x0A ∉ body) :
    splitLine (body ++ 0x0A :: rest) = (body ++ [0x0A], rest) := by
  induction body with
  | nil => rfl
  | cons byte body induction =>
      simp only [List.mem_cons, not_or] at noFeed
      rw [List.cons_append, splitLine, if_neg (Ne.symm noFeed.1), induction noFeed.2,
        List.cons_append]

theorem decodeLine_eq_ok_iff {line : List UInt8} {characters : List Char} :
    decodeLine line = .ok characters ↔
      ∃ text : String, text.toUTF8.toList = line ∧ text.toList = characters := by
  unfold decodeLine String.fromUTF8?
  constructor
  · intro decoded
    split at decoded
    · rename_i text found
      split at found
      · cases found
        cases decoded
        exact ⟨_, toList_eq_data _, rfl⟩
      · cases found
    · cases decoded
  · rintro ⟨text, rfl, rfl⟩
    have bytes : (⟨text.toUTF8.toList.toArray⟩ : ByteArray) = text.toUTF8 := by
      rw [toList_eq_data]
    have valid : text.toUTF8.IsValidUTF8 := text.isValidUTF8
    simp only [bytes, dif_pos valid]
    rfl

theorem readTokens_eq_ok_iff {content rest : List UInt8} {line : List String} :
    readTokens content = .ok (line, rest) ↔ BeginsWith content line rest := by
  constructor
  · intro read
    cases content with
    | nil => cases read
    | cons byte bytes =>
        simp only [readTokens, bind_eq_ok, pure_eq_ok, Prod.mk.injEq] at read
        obtain ⟨characters, decoded, tokenized, remaining⟩ := read
        obtain ⟨text, encoded, rfl⟩ := decodeLine_eq_ok_iff.mp decoded
        by_cases feed : 0x0A ∈ byte :: bytes
        · obtain ⟨body, after, parts, noFeed⟩ := List.eq_append_cons_of_mem feed
          rw [parts, splitLine_append after noFeed] at encoded remaining
          refine ⟨text, body, noFeed, .inl encoded, ?_, tokenized.symm⟩
          rw [parts, encoded, ← remaining, List.append_assoc, List.singleton_append]
        · rw [splitLine_of_not_mem feed] at encoded remaining
          refine ⟨text, byte :: bytes, feed, .inr ⟨encoded, by simp, remaining.symm⟩, ?_,
            tokenized.symm⟩
          rw [encoded, ← remaining, List.append_nil]
  · rintro ⟨text, body, noFeed, ends, rfl, rfl⟩
    have split : splitLine (text.toUTF8.toList ++ rest) = (text.toUTF8.toList, rest) ∧
        text.toUTF8.toList ++ rest ≠ [] := by
      rcases ends with encoded | ⟨encoded, nonempty, rfl⟩
      · rw [encoded, List.append_assoc, List.singleton_append]
        exact ⟨splitLine_append rest noFeed, by simp⟩
      · rw [encoded, List.append_nil]
        exact ⟨splitLine_of_not_mem noFeed, nonempty⟩
    obtain ⟨divided, nonempty⟩ := split
    obtain ⟨byte, bytes, parts⟩ := List.exists_cons_of_ne_nil nonempty
    rw [parts] at divided ⊢
    simp only [readTokens, divided, bind_eq_ok, pure_eq_ok]
    exact ⟨text.toList, decodeLine_eq_ok_iff.mpr ⟨text, rfl, rfl⟩, rfl⟩

theorem readLines_eq_ok_iff {Entry : Type} {read : List String → Except Failure Entry}
    {spelled : List String → Entry → Prop}
    (reads : ∀ line entry, read line = .ok entry ↔ spelled line entry) {count : Nat}
    {content rest : List UInt8} {entries : List Entry} :
    readLines read count content = .ok (entries, rest) ↔
      Lines spelled content entries rest ∧ entries.length = count := by
  induction count generalizing content entries with
  | zero =>
      constructor
      · intro read
        cases read
        exact ⟨.done _, rfl⟩
      · rintro ⟨lines, none⟩
        cases lines with
        | done => rfl
        | next _ _ _ => cases none
  | succ count induction =>
      simp only [readLines, bind_eq_ok, pure_eq_ok, Prod.exists, Prod.mk.injEq]
      constructor
      · rintro ⟨line, following, begins, entry, own, others, last, continued, rfl, rfl⟩
        obtain ⟨lines, rfl⟩ := induction.mp continued
        exact ⟨.next (readTokens_eq_ok_iff.mp begins) ((reads line entry).mp own) lines, rfl⟩
      · rintro ⟨lines, number⟩
        cases lines with
        | done => cases number
        | @next _ following _ line entry others begins spells lines =>
            exact ⟨line, following, readTokens_eq_ok_iff.mpr begins, entry,
              (reads line entry).mpr spells, others, rest,
              induction.mpr ⟨lines, Nat.succ.inj number⟩, rfl, rfl⟩

/-! ### Numbers -/

private theorem digit?_eq_some_iff {character : Char} {digit : Nat} :
    digit? character = some digit ↔
      ('0' ≤ character ∧ character ≤ '9') ∧ character.toNat - '0'.toNat = digit := by
  unfold digit?
  split
  · rename_i inside
    simp [inside]
  · rename_i outside
    simp [outside]

private theorem decimal?_eq_some_iff {characters : List Char} {value number : Nat} :
    decimal? value characters = some number ↔
      (∀ digit ∈ characters, '0' ≤ digit ∧ digit ≤ '9') ∧
        number = characters.foldl
          (fun value digit => 10 * value + (digit.toNat - '0'.toNat)) value := by
  induction characters generalizing value with
  | nil => simp [decimal?, eq_comm]
  | cons character characters induction =>
      simp only [decimal?, Option.bind_eq_bind, Option.bind_eq_some_iff, digit?_eq_some_iff,
        induction, List.forall_mem_cons, List.foldl_cons]
      constructor
      · rintro ⟨digit, ⟨inside, rfl⟩, others, folded⟩
        exact ⟨⟨inside, others⟩, folded⟩
      · rintro ⟨⟨inside, others⟩, folded⟩
        exact ⟨_, ⟨inside, rfl⟩, others, folded⟩

theorem digits?_eq_some_iff {characters : List Char} {number : Nat} :
    digits? characters = some number ↔ characters ≠ [] ∧ decimal? 0 characters = some number := by
  cases characters with
  | nil => simp [digits?]
  | cons character characters => simp [digits?]

theorem number?_eq_some_iff {token : String} {number : Nat} :
    number? token = some number ↔ Spells token number := by
  have sign : ¬ ('0' ≤ '+' ∧ '+' ≤ '9') := by decide
  simp only [number?, Option.filter_eq_some_iff, decide_eq_true_eq, Spells]
  constructor
  · rintro ⟨value, small⟩
    refine ⟨small, ?_⟩
    split at value
    · rename_i characters spelled
      obtain ⟨nonempty, value⟩ := digits?_eq_some_iff.mp value
      obtain ⟨digits, folded⟩ := decimal?_eq_some_iff.mp value
      exact ⟨characters, nonempty, .inr spelled, digits, folded⟩
    · obtain ⟨nonempty, value⟩ := digits?_eq_some_iff.mp value
      obtain ⟨digits, folded⟩ := decimal?_eq_some_iff.mp value
      exact ⟨token.toList, nonempty, .inl rfl, digits, folded⟩
  · rintro ⟨small, characters, nonempty, spelled, digits, folded⟩
    have value : digits? characters = some number :=
      digits?_eq_some_iff.mpr ⟨nonempty, decimal?_eq_some_iff.mpr ⟨digits, folded⟩⟩
    refine ⟨?_, small⟩
    rcases spelled with plain | signed
    · rw [plain]
      split
      · rename_i rest
        exact absurd (digits '+' List.mem_cons_self) sign
      · exact value
    · rw [signed]
      exact value

theorem readNumber_eq_ok_iff {token : String} {number : Nat} :
    readNumber token = .ok number ↔ Spells token number := by
  rw [← number?_eq_some_iff]
  unfold readNumber
  split
  · rename_i value found
    rw [found, Option.some.injEq, Except.ok.injEq]
  · rename_i missing
    simp [missing]

theorem isDigit_iff {character : Char} :
    character.isDigit = true ↔ '0' ≤ character ∧ character ≤ '9' := by
  simp [Char.isDigit, Char.le_def]

theorem spells_toString {number : Nat} (small : number < Word.limit) :
    Spells (toString number) number := by
  refine ⟨small, Nat.toDigits 10 number, Nat.toDigits_ne_nil, .inl Nat.toList_repr, ?_, ?_⟩
  · intro digit member
    exact isDigit_iff.mp (Nat.isDigit_of_mem_toDigits (by decide) (by decide) member)
  · exact Nat.ofDigitChars_ten_toDigits.symm

end Aiger

end AndInverter
