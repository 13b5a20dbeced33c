import AndInverter.Proofs.Aiger.Writing

/-!
# Written gates are built again

While what was written is read, every variable is bound to the node of its
number: no definition reduces to a signal or is in the store already, since
no two gates of a hashed store have the same fanins.
-/

namespace AndInverter

namespace Fanins

theorem ordered_comm (left right : Edge) : ordered left right = ordered right left := by
  unfold ordered
  by_cases less : left < right
  · have notGreater : ¬ right < left := Nat.lt_asymm (Edge.lt_iff.mp less)
    rw [if_neg notGreater, if_pos less]
  · by_cases greater : right < left
    · rw [if_pos greater, if_neg less]
    · rw [if_neg greater, if_neg less]
      have same : left = right := by
        apply Edge.literal_inj.mp
        rw [Edge.lt_iff] at less greater
        omega
      rw [same]

private theorem ordered_ofLiteral (left right : Edge) :
    ordered (.ofLiteral (max left.literal right.literal))
      (.ofLiteral (min left.literal right.literal)) = ordered left right := by
  rcases Nat.le_total left.literal right.literal with small | large
  · rw [Nat.max_eq_right small, Nat.min_eq_left small, Edge.ofLiteral_literal,
      Edge.ofLiteral_literal, ordered_comm]
  · rw [Nat.max_eq_left large, Nat.min_eq_right large, Edge.ofLiteral_literal,
      Edge.ofLiteral_literal]

private theorem trivial?_ordered {left right : Edge} (different : left.node ≠ right.node)
    (leftNotConstant : left.node ≠ 0) (rightNotConstant : right.node ≠ 0) :
    (ordered left right).trivial? = none := by
  apply trivial?_eq_none_iff.mpr
  unfold ordered
  split
  · exact ⟨Ne.symm different, rightNotConstant⟩
  · exact ⟨different, leftNotConstant⟩

def rename (image : Nat → Nat) (fanins : Fanins) : Fanins :=
  ordered (fanins.first.rename image) (fanins.second.rename image)

/-- Pairs in order are the same if they have the same renaming and no two of
their edges do. -/
theorem eq_of_rename {image : Nat → Nat} {left right : Fanins}
    (leftSorted : left.first < left.second) (rightSorted : right.first < right.second)
    (injective : ∀ edge other, edge ∈ left.toList → other ∈ right.toList →
      edge.rename image = other.rename image → edge = other)
    (same : left.rename image = right.rename image) : left = right := by
  unfold rename at same
  have found : ∀ edge ∈ left.toList, edge = right.first ∨ edge = right.second := by
    intro edge member
    have renamed : edge.rename image = left.first.rename image ∨
        edge.rename image = left.second.rename image := by
      rcases List.mem_pair.mp member with rfl | rfl
      · exact .inl rfl
      · exact .inr rfl
    rw [← mem_ordered_iff, same, mem_ordered_iff] at renamed
    rcases renamed with first | second
    · exact .inl (injective edge _ member (List.mem_pair.mpr (.inl rfl)) first)
    · exact .inr (injective edge _ member (List.mem_pair.mpr (.inr rfl)) second)
  obtain ⟨first, second⟩ := left
  obtain ⟨first', second'⟩ := right
  have firstFound := found first (List.mem_pair.mpr (.inl rfl))
  have secondFound := found second (List.mem_pair.mpr (.inr rfl))
  rw [Edge.lt_iff] at leftSorted rightSorted
  dsimp only at leftSorted rightSorted firstFound secondFound
  rcases firstFound with rfl | rfl
  · rcases secondFound with rfl | rfl
    · omega
    · rfl
  · rcases secondFound with rfl | rfl
    · omega
    · omega

end Fanins

theorem Aig.conjoin_eq_addGate {aig : Aig} {left right : Edge}
    (irreducible : (Fanins.ordered left right).trivial? = none)
    (absent : aig.table[Fanins.ordered left right]? = none) :
    aig.conjoin left right = aig.addGate (.ordered left right) := by
  simp [Aig.conjoin, irreducible, absent]

namespace Aiger

namespace Builder

/-- Every variable up to the last node is bound to the node of its number. -/
structure Verbatim (builder : Builder) : Prop where
  sound : builder.Sound
  signals : ∀ (name : Nat) (edge : Edge), builder.signals[name]? = some edge ↔
    name < builder.aig.size ∧ edge = .plain name

variable {builder next : Builder}

theorem verbatim_start (header : Header) : (start header).Verbatim := by
  refine ⟨sound_start header, fun name edge => ?_⟩
  have lookup : (start header).signals[name]? = some edge ↔
      0 = name ∧ Edge.constant false = edge := by
    simp [start, Std.TreeMap.getElem?_insert]
  have one : (start header).aig.size = 1 := rfl
  rw [lookup, one, Nat.lt_one_iff]
  constructor
  · rintro ⟨rfl, rfl⟩
    exact ⟨rfl, rfl⟩
  · rintro ⟨rfl, rfl⟩
    exact ⟨rfl, rfl⟩

theorem Verbatim.signal?_eq_some_iff (verbatim : builder.Verbatim) {literal : Nat} {edge : Edge} :
    builder.signal? literal = some edge ↔
      literal / 2 < builder.aig.size ∧ edge = .ofLiteral literal := by
  rw [Builder.signal?_eq_some_iff]
  simp only [verbatim.signals]
  constructor
  · rintro ⟨_, ⟨inside, rfl⟩, rfl⟩
    exact ⟨inside, by simp [Edge.plain, Edge.complementIf, Edge.ofLiteral]⟩
  · rintro ⟨inside, rfl⟩
    exact ⟨_, ⟨inside, rfl⟩, by simp [Edge.plain, Edge.complementIf, Edge.ofLiteral]⟩

theorem Verbatim.bound (verbatim : builder.Verbatim) {built : Edge × Aig}
    (sound : (builder.bound builder.aig.size built).Sound)
    (plain : built.1 = .plain builder.aig.size) (grown : built.2.size = builder.aig.size + 1) :
    (builder.bound builder.aig.size built).Verbatim := by
  refine ⟨sound, fun name edge => ?_⟩
  show (builder.signals.insert builder.aig.size built.1)[name]? = some edge ↔
    name < built.2.size ∧ _
  rw [Std.TreeMap.getElem?_insert, grown, plain]
  simp only [Std.LawfulEqCmp.compare_eq_iff_eq]
  split
  · rename_i new
    rw [← new, Option.some.injEq]
    constructor
    · intro same
      exact ⟨Nat.lt_succ_self _, same.symm⟩
    · rintro ⟨_, same⟩
      exact same.symm
  · rename_i old
    rw [verbatim.signals]
    refine and_congr_left fun _ => ?_
    omega

theorem Verbatim.addInputs (verbatim : builder.Verbatim) {count : Nat}
    (added : (List.range' builder.aig.size count).foldlM addInput builder = .ok next) :
    next.Verbatim ∧ next.aig.size = builder.aig.size + count ∧
      next.aig.inputs.toList =
        builder.aig.inputs.toList ++ List.range' builder.aig.size count ∧
      ∀ id, next.aig.gateFanins? id = builder.aig.gateFanins? id := by
  induction count generalizing builder with
  | zero =>
      cases added
      exact ⟨verbatim, rfl, by simp, fun _ => rfl⟩
  | succ count induction =>
      rw [List.range'_succ, List.foldlM_cons, bind_eq_ok] at added
      obtain ⟨middle, first, others⟩ := added
      have extended := verbatim.sound.extends_addInput first
      obtain ⟨admits, rfl⟩ := addInput_eq_ok_iff.mp first
      have following := verbatim.bound extended.sound rfl (Aig.size_addInput _)
      have size : (builder.bound builder.aig.size builder.aig.addInput).aig.size =
          builder.aig.size + 1 := Aig.size_addInput _
      rw [← size] at others
      obtain ⟨last, grown, inputs, gates⟩ := induction following others
      refine ⟨last, by omega, ?_, fun id => ?_⟩
      · rw [inputs, size, List.range'_succ]
        show (builder.aig.inputs.push builder.aig.size).toList ++ _ = _
        simp
      · rw [gates]
        exact Aig.gateFanins?_addInput builder.aig id

end Builder

namespace Numbering

open Builder

variable {numbering : Numbering} {aig : Aig}

/-- The graph under construction has the inputs of another one and copies of
some of its gates, numbered in this order. -/
structure Mirrors (numbering : Numbering) (aig : Aig) (done : List Nat) (builder : Builder) :
    Prop where
  verbatim : builder.Verbatim
  size : builder.aig.size = aig.inputs.size + 1 + done.length
  inputs : builder.aig.inputs.toList = List.range' 1 aig.inputs.size
  gates : ∀ id pair, builder.aig.gateFanins? id = some pair ↔
    ∃ gate ∈ done, ∃ fanins, aig.gateFanins? gate = some fanins ∧ numbering.number gate = id ∧
      pair = fanins.rename numbering.number

theorem mirrors_inputs {header : Header} {builder : Builder}
    (added : (List.range' 1 aig.inputs.size).foldlM Builder.addInput (Builder.start header) =
      .ok builder) : numbering.Mirrors aig [] builder := by
  obtain ⟨verbatim, size, inputs, gates⟩ := (verbatim_start header).addInputs added
  refine { verbatim := verbatim, size := ?_, inputs := inputs, gates := fun id pair => ?_ }
  · rw [size]
    exact Nat.add_comm 1 _
  · have none : (Builder.start header).aig.gateFanins? id = none := by
      cases id with
      | zero => rfl
      | succ id => exact Aig.gateFanins?_eq_none_of_size_le (Nat.le_add_left 1 id)
    rw [gates, none]
    simp

theorem Covers.irreducible (covers : numbering.Covers aig) (intact : aig.Intact) {gate : Nat}
    (listed : gate ∈ numbering.gates) {fanins : Fanins}
    (stored : aig.gateFanins? gate = some fanins) :
    (fanins.rename numbering.number).trivial? = none := by
  have references := intact.bookkeeping.toReferences
  obtain ⟨_, different, _⟩ := references.normal gate fanins stored
  obtain ⟨firstNotConstant, secondNotConstant⟩ := Aig.node_ne_zero_of_stored references stored
  have below := covers.below_fanins listed stored
  have first := covers.mem_nodes_of_below intact (below _ (List.mem_pair.mpr (.inl rfl)))
  have second := covers.mem_nodes_of_below intact (below _ (List.mem_pair.mpr (.inr rfl)))
  have nonzero : ∀ id ∈ numbering.nodes aig, id ≠ 0 → numbering.number id ≠ 0 := by
    intro id member notConstant same
    rw [← covers.constant] at same
    exact notConstant (covers.injective member (mem_nodes.mpr (.inl rfl)) same)
  apply Fanins.trivial?_ordered
  · exact fun same => different (covers.injective first second same)
  · exact nonzero _ first firstNotConstant
  · exact nonzero _ second secondNotConstant

namespace Mirrors

variable {done : List Nat} {builder next : Builder}

theorem number_lt (mirrors : numbering.Mirrors aig done builder) {gate : Nat}
    (member : gate ∈ done) {fanins : Fanins} (stored : aig.gateFanins? gate = some fanins) :
    numbering.number gate < builder.aig.size :=
  Aig.lt_size_of_gateFanins?
    ((mirrors.gates _ _).mpr ⟨gate, member, fanins, stored, rfl, rfl⟩)

theorem absent (mirrors : numbering.Mirrors aig done builder) (covers : numbering.Covers aig)
    (intact : aig.Intact) {gate : Nat} {later : List Nat}
    (parts : numbering.gates = done ++ gate :: later) {fanins : Fanins}
    (stored : aig.gateFanins? gate = some fanins) :
    builder.aig.table[fanins.rename numbering.number]? = none := by
  cases found : builder.aig.table[fanins.rename numbering.number]? with
  | none => rfl
  | some copy =>
      have built := mirrors.verbatim.sound.intact.bookkeeping.table_sound _ copy found
      obtain ⟨other, member, fanins', stored', _, same⟩ := (mirrors.gates copy _).mp built
      -- The entry leads to the copy of a gate with the same fanins, and a
      -- hashed graph has only one such gate.
      have below := covers.below_fanins (mem_of_parts parts) stored
      have otherBelow := covers.below_fanins (mem_of_earlier parts member) stored'
      have equal : fanins = fanins' := by
        apply Fanins.eq_of_rename (intact.bookkeeping.normal gate fanins stored).1
          (intact.bookkeeping.normal other fanins' stored').1 ?_ same
        intro edge edge' inside inside' renamed
        exact covers.rename_injective intact (below edge inside) (otherBelow edge' inside') renamed
      have twin : gate = other := intact.hashed.injective stored (equal ▸ stored')
      exact absurd (twin ▸ member) (covers.not_mem_earlier parts)

theorem build_eq (mirrors : numbering.Mirrors aig done builder) (covers : numbering.Covers aig)
    (intact : aig.Intact) {gate : Nat} {later : List Nat}
    (parts : numbering.gates = done ++ gate :: later) {fanins : Fanins}
    (stored : aig.gateFanins? gate = some fanins) {definition : Definition}
    (left : definition.left =
      max (numbering.literal fanins.first) (numbering.literal fanins.second))
    (right : definition.right =
      min (numbering.literal fanins.first) (numbering.literal fanins.second))
    (built : builder.build definition = .ok next) :
    next = builder.bound definition.target
      (builder.aig.addGate (fanins.rename numbering.number)) := by
  have verbatim := mirrors.verbatim
  obtain ⟨first, second, firstFound, secondFound, _, outcome⟩ :=
    verbatim.sound.build_eq_ok_iff.mp built
  obtain ⟨_, rfl⟩ := verbatim.signal?_eq_some_iff.mp firstFound
  obtain ⟨_, rfl⟩ := verbatim.signal?_eq_some_iff.mp secondFound
  have pair : Fanins.ordered (.ofLiteral definition.left) (.ofLiteral definition.right) =
      fanins.rename numbering.number := by
    rw [left, right, literal_eq, literal_eq, Fanins.ordered_ofLiteral, Fanins.rename]
  have irreducible := covers.irreducible intact (mem_of_parts parts) stored
  have absent := mirrors.absent covers intact parts stored
  rw [← pair] at irreducible absent
  rw [outcome, Aig.conjoin_eq_addGate irreducible absent, pair]

theorem gates_append (mirrors : numbering.Mirrors aig done builder) {gate : Nat} {fanins : Fanins}
    (stored : aig.gateFanins? gate = some fanins)
    (number : numbering.number gate = builder.aig.size) (id : Nat) (pair : Fanins) :
    (builder.aig.addGate (fanins.rename numbering.number)).2.gateFanins? id = some pair ↔
      ∃ other ∈ done ++ [gate], ∃ fanins, aig.gateFanins? other = some fanins ∧
        numbering.number other = id ∧ pair = fanins.rename numbering.number := by
  rw [Aig.gateFanins?_addGate]
  split
  · rename_i new
    constructor
    · intro same
      exact ⟨gate, List.mem_append_right _ List.mem_cons_self, fanins, stored,
        number.trans new.symm, (Option.some.inj same).symm⟩
    · rintro ⟨other, member, fanins', stored', numbered, rfl⟩
      rcases List.mem_append.mp member with earlier | last
      · have small := mirrors.number_lt earlier stored'
        omega
      · rw [List.mem_singleton.mp last, stored] at stored'
        cases stored'
        rfl
  · rename_i old
    rw [mirrors.gates]
    constructor
    · rintro ⟨other, member, copy⟩
      exact ⟨other, List.mem_append_left _ member, copy⟩
    · rintro ⟨other, member, fanins', stored', numbered, same⟩
      rcases List.mem_append.mp member with earlier | last
      · exact ⟨other, earlier, fanins', stored', numbered, same⟩
      · rw [List.mem_singleton.mp last, number] at numbered
        exact absurd numbered.symm old

theorem build (mirrors : numbering.Mirrors aig done builder) (covers : numbering.Covers aig)
    (intact : aig.Intact) {gate : Nat} {later : List Nat}
    (parts : numbering.gates = done ++ gate :: later) {definition : Definition}
    (writes : numbering.Writes aig gate definition)
    (built : builder.build definition = .ok next) :
    numbering.Mirrors aig (done ++ [gate]) next := by
  obtain ⟨fanins, stored, rfl⟩ := writes
  have target : numbering.number gate = builder.aig.size :=
    (covers.number_of_parts parts).trans mirrors.size.symm
  have sound := (mirrors.verbatim.sound.extends_build built).sound
  have outcome := mirrors.build_eq covers intact parts stored rfl rfl built
  dsimp only at outcome
  rw [target] at outcome
  subst outcome
  refine { verbatim := mirrors.verbatim.bound sound rfl (Aig.size_addGate ..)
           size := ?_, inputs := mirrors.inputs
           gates := fun id pair => mirrors.gates_append stored target id pair }
  rw [List.length_append, List.length_singleton, ← Nat.add_assoc, ← mirrors.size]
  exact Aig.size_addGate ..

/-- Once all definitions were built, all gates have their copies. -/
theorem builds (mirrors : numbering.Mirrors aig done builder) (covers : numbering.Covers aig)
    (intact : aig.Intact) {later : List Nat} (parts : numbering.gates = done ++ later)
    {definitions : List Definition}
    (writes : List.Forall₂ (numbering.Writes aig) later definitions)
    (built : definitions.foldlM Builder.build builder = .ok next) :
    numbering.Mirrors aig numbering.gates next := by
  -- On the gates that are left: the mirrored ones grow by one in each step.
  induction writes generalizing done builder with
  | nil =>
      cases built
      rw [parts, List.append_nil]
      exact mirrors
  | @cons gate _ later _ own _ induction =>
      rw [List.foldlM_cons, bind_eq_ok] at built
      obtain ⟨middle, first, others⟩ := built
      have following := mirrors.build covers intact parts own first
      apply induction following ?_ others
      rw [parts, List.append_assoc]
      rfl

end Mirrors

end Numbering

end Aiger

end AndInverter
