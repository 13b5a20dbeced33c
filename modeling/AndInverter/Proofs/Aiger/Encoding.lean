import AndInverter.Aiger.Encoding
import AndInverter.Proofs.Aiger.Acceptance
import AndInverter.Proofs.Aiger.Delta

/-!
# What is written is read back

Words without blanks are the tokens of the line that they are written into, so
lines are read back whatever comes after them.  Both readers make the same
steps on the two files of a netlist.
-/

namespace AndInverter

namespace Aiger

/-! ### Lines -/

/-- A word that is a token of its own. -/
structure Plain (word : String) : Prop where
  nonempty : word.toList ≠ []
  solid : ∀ character ∈ word.toList, isBlank character = false

private theorem isBlank_of_digit {digit : Char} (inside : '0' ≤ digit ∧ digit ≤ '9') :
    isBlank digit = false := by
  have bounds : 48 ≤ digit.toNat ∧ digit.toNat ≤ 57 := by
    simpa [Char.le_def, UInt32.le_iff_toNat_le] using inside
  simp only [isBlank, blanks, List.contains_eq_mem, List.mem_cons, List.not_mem_nil, or_false,
    decide_eq_false_iff_not]
  omega

theorem plain_toString (number : Nat) : Plain (toString number) := by
  have digits : (toString number).toList = Nat.toDigits 10 number := Nat.toList_repr
  refine ⟨digits ▸ Nat.toDigits_ne_nil, fun character member => ?_⟩
  rw [digits] at member
  exact isBlank_of_digit
    (isDigit_iff.mp (Nat.isDigit_of_mem_toDigits (by decide) (by decide) member))

private theorem pieces_append {word : List Char}
    (solid : ∀ character ∈ word, isBlank character = false)
    {blank : Char} (separates : isBlank blank = true) (rest : List Char) :
    pieces (word ++ blank :: rest) = word :: pieces rest := by
  induction word with
  | nil => simp [pieces, separates]
  | cons character word induction =>
      rw [List.forall_mem_cons] at solid
      rw [List.cons_append, pieces, induction solid.2]
      simp [solid.1]

private theorem tokens_append {word : String} (plain : Plain word) {blank : Char}
    (separates : isBlank blank = true) (rest : List Char) :
    tokens (word.toList ++ blank :: rest) = word :: tokens rest := by
  rw [tokens, pieces_append plain.solid separates]
  simp [plain.nonempty, tokens]

/-- A line consists of its words, and its only line feed is the last
character. -/
theorem lineOf_eq {words : List String} (plain : ∀ word ∈ words, Plain word) :
    tokens (lineOf words).toList = words ∧
      ∃ body : String, lineOf words = body ++ "\n" ∧ '\n' ∉ body.toList := by
  have feed : isBlank '\n' = true := by decide
  have space : isBlank ' ' = true := by decide
  have noFeed : ∀ word, Plain word → '\n' ∉ word.toList := by
    intro word plain member
    rw [plain.solid _ member] at feed
    cases feed
  induction words using lineOf.induct with
  | case1 => exact ⟨rfl, "", rfl, by simp⟩
  | case2 word =>
      have own := plain word List.mem_cons_self
      refine ⟨?_, word, rfl, noFeed word own⟩
      rw [lineOf, String.toList_append]
      exact tokens_append own feed []
  | case3 word words several induction =>
      rw [List.forall_mem_cons] at plain
      obtain ⟨own, others⟩ := plain
      obtain ⟨tokenized, body, ended, bodyNoFeed⟩ := induction others
      have parts : lineOf (word :: words) = word ++ " " ++ lineOf words := by
        rw [lineOf]
        exact several
      rw [parts]
      refine ⟨?_, word ++ " " ++ body, ?_, ?_⟩
      · rw [String.toList_append, String.toList_append, List.append_assoc]
        exact (tokens_append own space _).trans (congrArg (word :: ·) tokenized)
      · rw [ended]
        simp only [String.append_assoc]
      · simp [noFeed word own, bodyNoFeed]

theorem readTokens_line {words : List String} (plain : ∀ word ∈ words, Plain word)
    (rest : List UInt8) :
    readTokens ((lineOf words).toUTF8.toList ++ rest) = .ok (words, rest) := by
  obtain ⟨tokenized, body, ended, noFeed⟩ := lineOf_eq plain
  apply readTokens_eq_ok_iff.mpr
  refine ⟨lineOf words, body.toUTF8.toList, lineFeed_mem_toUTF8.not.mpr noFeed, .inl ?_, rfl,
    tokenized.symm⟩
  have feed : "\n".toUTF8.toList = [0x0A] := by decide +kernel
  rw [ended, toUTF8_append, feed]

theorem readLines_linesOf {Entry : Type} {read : List String → Except Failure Entry}
    {lines : List (List String)} (plain : ∀ words ∈ lines, ∀ word ∈ words, Plain word)
    (rest : List UInt8) :
    readLines read lines.length (linesOf lines ++ rest) =
      (do let entries ← lines.mapM read; return (entries, rest)) := by
  induction lines with
  | nil => rfl
  | cons words lines induction =>
      rw [List.forall_mem_cons] at plain
      have parts : linesOf (words :: lines) ++ rest =
          (lineOf words).toUTF8.toList ++ (linesOf lines ++ rest) := by
        rw [linesOf, List.flatMap_cons, List.append_assoc]
        rfl
      rw [parts, List.length_cons, readLines, readTokens_line plain.1, List.mapM_cons]
      cases own : read words with
      | error failure =>
          simp only [bind, Except.bind, own]
      | ok entry =>
          have following := induction plain.2
          simp only [bind, Except.bind, own] at following ⊢
          rw [following]
          cases lines.mapM read with
          | error failure => rfl
          | ok entries => rfl

theorem spells_toString_iff {number value : Nat} :
    Spells (toString number) value ↔ value = number ∧ number < Word.limit := by
  constructor
  · rintro ⟨small, digits, _, spelled, inside, folded⟩
    have written : (toString number).toList = Nat.toDigits 10 number := Nat.toList_repr
    have plain : (toString number).toList = digits := by
      refine spelled.resolve_right fun signed => ?_
      have sign : '+' ∈ Nat.toDigits 10 number := by
        rw [← written, signed]
        exact List.mem_cons_self
      have isDigit := Nat.isDigit_of_mem_toDigits (by decide) (by decide) sign
      exact absurd isDigit (by decide)
    have same : value = number := by
      rw [folded, ← plain, written]
      exact Nat.ofDigitChars_ten_toDigits
    exact ⟨same, same ▸ small⟩
  · rintro ⟨rfl, small⟩
    exact spells_toString small

/-! ### Netlists -/

namespace Netlist

variable {netlist : Netlist}

theorem plain_headerWords {format : String} (plain : Plain format) :
    ∀ word ∈ netlist.headerWords format, Plain word := by
  have zero : Plain "0" := ⟨by simp, by simp [isBlank, blanks]⟩
  simp only [headerWords, List.forall_mem_cons]
  exact ⟨plain, plain_toString _, plain_toString _, zero, plain_toString _, plain_toString _,
    fun _ member => absurd member List.not_mem_nil⟩

theorem ofTokens_headerWords_iff {format : String} (named : format = "aag" ∨ format = "aig")
    {header : Header} :
    Header.ofTokens (netlist.headerWords format) = .ok header ↔
      netlist.Headed ∧ header = netlist.header := by
  have zero : Spells (toString 0) 0 := spells_toString (by decide)
  rw [ofTokens_eq_ok_iff]
  constructor
  · rintro ⟨⟨_, _, _, _, _, _, same, _, maxVariable, inputs, _, outputs, gates⟩, enough, fits⟩
    cases same
    obtain ⟨sameMaxVariable, _⟩ := spells_toString_iff.mp maxVariable
    obtain ⟨sameInputs, _⟩ := spells_toString_iff.mp inputs
    obtain ⟨sameOutputs, outputsFit⟩ := spells_toString_iff.mp outputs
    obtain ⟨sameGates, _⟩ := spells_toString_iff.mp gates
    obtain ⟨_, _, _, _⟩ := header
    subst sameMaxVariable sameInputs sameOutputs sameGates
    exact ⟨⟨enough, fits, outputsFit⟩, rfl⟩
  · rintro ⟨headed, rfl⟩
    have enough := headed.enough
    have fits := headed.fits
    refine ⟨⟨format, _, _, _, _, _, rfl, named, ?_, ?_, zero, ?_, ?_⟩, enough, fits⟩
    · exact spells_toString (by omega)
    · exact spells_toString (by omega)
    · exact spells_toString headed.outputs
    · exact spells_toString (by omega)

theorem readHeader_headerWords {format : String} (named : format = "aag" ∨ format = "aig")
    (rest : List UInt8) :
    Header.read (linesOf [netlist.headerWords format] ++ rest) =
      (do let header ← Header.ofTokens (netlist.headerWords "aag"); return (header, rest)) := by
  have plain : Plain format := by
    rcases named with rfl | rfl
    · exact ⟨by simp, by simp [isBlank, blanks]⟩
    · exact ⟨by simp, by simp [isBlank, blanks]⟩
  have line : linesOf [netlist.headerWords format] =
      (lineOf (netlist.headerWords format)).toUTF8.toList := by
    simp [linesOf]
  have same : Header.ofTokens (netlist.headerWords format) =
      Header.ofTokens (netlist.headerWords "aag") := by
    rcases named with rfl | rfl
    · rfl
    · simp [headerWords, Header.ofTokens]
  rw [line, Header.read, readTokens_line (plain_headerWords plain)]
  simp only [← same]
  rfl

end Netlist

end Aiger

end AndInverter
