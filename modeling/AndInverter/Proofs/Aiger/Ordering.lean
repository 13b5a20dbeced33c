import AndInverter.Aiger.Grammar
import AndInverter.Proofs.Aiger.Building
import Mathlib.Data.Set.Card

/-!
# Orders of definitions

Definitions can be built one after the other exactly if each defines a new
variable by variables known before it.  Building in passes finds such an order
whenever there is one: a definition that nothing pending comes before is built
in the next pass.
-/

namespace AndInverter

namespace Aiger

/-- Definitions in an order in which they can be built on top of known
variables. -/
inductive Orders : List Nat → List Definition → Prop
  | nil (known : List Nat) : Orders known []
  | cons {known : List Nat} {definition : Definition} {rest : List Definition}
      (fresh : definition.target ∉ known) (left : definition.left / 2 ∈ known)
      (right : definition.right / 2 ∈ known)
      (others : Orders (definition.target :: known) rest) : Orders known (definition :: rest)

def Ranked (rank : Nat → Nat) (definitions : List Definition) : Prop :=
  ∀ definition ∈ definitions, rank (definition.left / 2) < rank definition.target ∧
    rank (definition.right / 2) < rank definition.target

theorem Orders.fresh {known : List Nat} {definitions : List Definition}
    (orders : Orders known definitions) :
    ∀ definition ∈ definitions, definition.target ∉ known := by
  induction orders with
  | nil known => exact fun _ member => absurd member List.not_mem_nil
  | cons fresh _ _ _ induction =>
      rw [List.forall_mem_cons]
      exact ⟨fresh, fun other member old =>
        induction other member (List.mem_cons_of_mem _ old)⟩

theorem Orders.nodup {known : List Nat} {definitions : List Definition}
    (orders : Orders known definitions) : (definitions.map (·.target)).Nodup := by
  induction orders with
  | nil known => exact List.nodup_nil
  | cons _ _ _ others induction =>
      refine List.nodup_cons.mpr ⟨fun again => ?_, induction⟩
      obtain ⟨other, member, same⟩ := List.mem_map.mp again
      exact others.fresh other member (same ▸ List.mem_cons_self)

theorem Orders.operands {known : List Nat} {definitions : List Definition}
    (orders : Orders known definitions) :
    ∀ definition ∈ definitions,
      definition.left / 2 ∈ known ++ definitions.map (·.target) ∧
        definition.right / 2 ∈ known ++ definitions.map (·.target) := by
  induction orders with
  | nil known => exact fun _ member => absurd member List.not_mem_nil
  | @cons known definition rest _ left right _ induction =>
      have shift : ∀ name, name ∈ (definition.target :: known) ++ rest.map (·.target) →
          name ∈ known ++ (definition :: rest).map (·.target) := by
        intro name member
        simp only [List.mem_append, List.mem_cons, List.map_cons] at member ⊢
        tauto
      rw [List.forall_mem_cons]
      refine ⟨⟨List.mem_append_left _ left, List.mem_append_left _ right⟩, fun other member => ?_⟩
      obtain ⟨otherLeft, otherRight⟩ := induction other member
      exact ⟨shift _ otherLeft, shift _ otherRight⟩

/-- Definitions in order can be ranked: known variables have rank 0, and every
definition raises the ranks of the later ones. -/
theorem Orders.exists_rank {known : List Nat} {definitions : List Definition}
    (orders : Orders known definitions) : ∃ rank, Ranked rank definitions := by
  induction orders with
  | nil known => exact ⟨fun _ => 0, fun _ member => absurd member List.not_mem_nil⟩
  | @cons known definition rest fresh left right others induction =>
      obtain ⟨rank, ranked⟩ := induction
      let raised := fun name => if name ∈ known then 0 else rank name + 1
      have below : ∀ {operand target}, target ∉ known →
          operand ∈ known ∨ rank operand < rank target → raised operand < raised target := by
        intro operand target new sides
        simp only [raised, if_neg new]
        split
        · omega
        · rename_i unknown
          have less := sides.resolve_left unknown
          omega
      refine ⟨raised, List.forall_mem_cons.mpr ⟨⟨below fresh (.inl left), below fresh (.inl right)⟩,
        fun other member => ?_⟩⟩
      have new : other.target ∉ known :=
        fun old => others.fresh other member (List.mem_cons_of_mem _ old)
      exact ⟨below new (.inr (ranked other member).1), below new (.inr (ranked other member).2)⟩

namespace Description

variable {description : Description}

theorem rank_lt_of_depends {rank : Nat → Nat} (ranked : Ranked rank description.definitions)
    {target operand : Nat} (depends : description.Depends target operand) :
    rank operand < rank target := by
  obtain ⟨definition, member, rfl, sides⟩ := depends
  rcases sides with rfl | rfl
  · exact (ranked definition member).1
  · exact (ranked definition member).2

theorem acyclic_of_ranked {rank : Nat → Nat} (ranked : Ranked rank description.definitions)
    (name : Nat) : ¬ Relation.TransGen description.Depends name name := by
  have lower : ∀ operand, Relation.TransGen description.Depends name operand →
      rank operand < rank name := by
    intro operand path
    induction path with
    | single depends => exact rank_lt_of_depends ranked depends
    | tail _ depends induction => exact Nat.lt_trans (rank_lt_of_depends ranked depends) induction
  exact fun cycle => Nat.lt_irrefl _ (lower name cycle)

end Description

namespace Builder

variable {builder next : Builder}

def Knows (builder : Builder) (known : List Nat) : Prop :=
  ∀ name, name ∈ builder.signals ↔ name ∈ known

theorem Extends.knows {names known : List Nat} (extended : builder.Extends names next)
    (knows : builder.Knows known) : next.Knows (names ++ known) := by
  intro name
  rw [extended.known, knows, List.mem_append]

theorem Knows.exists_signal?_iff {known : List Nat} (knows : builder.Knows known)
    {literal : Nat} : (∃ edge, builder.signal? literal = some edge) ↔ literal / 2 ∈ known := by
  rw [Builder.exists_signal?_iff, knows]

theorem Sound.exists_addInputs_iff (sound : builder.Sound) {known : List Nat}
    (knows : builder.Knows known) {names : List Nat} :
    (∃ next, names.foldlM addInput builder = .ok next) ↔
      names.Nodup ∧ ∀ name ∈ names, name ∉ known ∧ name ≤ builder.maxVariable := by
  induction names generalizing builder known with
  | nil => exact ⟨fun _ => ⟨List.nodup_nil, by simp⟩, fun _ => ⟨builder, rfl⟩⟩
  | cons name names induction =>
      simp only [List.foldlM_cons, bind_eq_ok]
      rw [List.forall_mem_cons, List.nodup_cons]
      constructor
      · rintro ⟨next, middle, first, rest⟩
        have extended := sound.extends_addInput first
        obtain ⟨⟨small, new⟩, _⟩ := addInput_eq_ok_iff.mp first
        obtain ⟨nodup, others⟩ :=
          (induction extended.sound (extended.knows knows)).mp ⟨next, rest⟩
        rw [extended.maxVariable] at others
        refine ⟨⟨fun again => (others name again).1 List.mem_cons_self, nodup⟩,
          ⟨fun old => new ((knows name).mpr old), small⟩,
          fun other member => ⟨fun old => ?_, (others other member).2⟩⟩
        exact (others other member).1 (List.mem_cons_of_mem name old)
      · rintro ⟨⟨once, nodup⟩, ⟨new, small⟩, others⟩
        have first : builder.addInput name = .ok (builder.bound name builder.aig.addInput) :=
          addInput_eq_ok_iff.mpr ⟨⟨small, fun old => new ((knows name).mp old)⟩, rfl⟩
        have extended := sound.extends_addInput first
        have admitted : ∀ other ∈ names, other ∉ name :: known ∧ other ≤ builder.maxVariable := by
          intro other member
          refine ⟨fun old => ?_, (others other member).2⟩
          rcases List.mem_cons.mp old with rfl | old
          · exact once member
          · exact (others other member).1 old
        obtain ⟨next, rest⟩ := (induction extended.sound (extended.knows knows)).mpr
          ⟨nodup, admitted⟩
        exact ⟨next, _, first, rest⟩

/-- Definitions can be built one after the other exactly if they are in order
and in range. -/
theorem Sound.exists_foldlM_build_iff (sound : builder.Sound) {known : List Nat}
    (knows : builder.Knows known) {definitions : List Definition} :
    (∃ next, definitions.foldlM build builder = .ok next) ↔
      Orders known definitions ∧
        ∀ definition ∈ definitions, definition.target ≤ builder.maxVariable := by
  induction definitions generalizing builder known with
  | nil => exact ⟨fun _ => ⟨.nil known, by simp⟩, fun _ => ⟨builder, rfl⟩⟩
  | cons definition rest induction =>
      simp only [List.foldlM_cons, bind_eq_ok]
      rw [List.forall_mem_cons]
      constructor
      · rintro ⟨next, middle, first, others⟩
        have extended := sound.extends_build first
        obtain ⟨left, right, leftFound, rightFound, ⟨small, new⟩, _⟩ :=
          sound.build_eq_ok_iff.mp first
        obtain ⟨orders, inRange⟩ :=
          (induction extended.sound (extended.knows knows)).mp ⟨next, others⟩
        rw [extended.maxVariable] at inRange
        exact ⟨.cons (fun old => new ((knows _).mpr old))
          (knows.exists_signal?_iff.mp ⟨left, leftFound⟩)
          (knows.exists_signal?_iff.mp ⟨right, rightFound⟩) orders, small, inRange⟩
      · rintro ⟨orders, small, inRange⟩
        cases orders with
        | cons fresh left right orders =>
            obtain ⟨leftEdge, leftFound⟩ := knows.exists_signal?_iff.mpr left
            obtain ⟨rightEdge, rightFound⟩ := knows.exists_signal?_iff.mpr right
            have first := sound.build_eq_ok_iff.mpr ⟨leftEdge, rightEdge, leftFound, rightFound,
              ⟨small, fun old => fresh ((knows _).mp old)⟩, rfl⟩
            have extended := sound.extends_build first
            obtain ⟨next, others⟩ :=
              (induction extended.sound (extended.knows knows)).mpr ⟨orders, inRange⟩
            exact ⟨next, _, first, others⟩

/-! ### Passes -/

theorem build_of_signals {definition : Definition} {left right : Edge}
    (leftFound : builder.signal? definition.left = some left)
    (rightFound : builder.signal? definition.right = some right) :
    builder.build definition = builder.addGate definition left right := by
  simp only [build, resolve, leftFound, rightFound]
  rfl

/-- A pass builds some of the definitions, in their order, and returns the
others. -/
theorem exists_built_of_pass {definitions pending : List Definition}
    (passed : builder.pass definitions = .ok (next, pending)) :
    ∃ built, definitions.Perm (built ++ pending) ∧ built.foldlM build builder = .ok next := by
  induction definitions generalizing builder pending with
  | nil =>
      cases passed
      exact ⟨[], .refl [], rfl⟩
  | cons definition definitions induction =>
      rw [pass] at passed
      split at passed
      · rename_i left right leftFound rightFound
        obtain ⟨middle, first, rest⟩ := bind_eq_ok.mp passed
        obtain ⟨built, permutation, run⟩ := induction rest
        rw [← build_of_signals leftFound rightFound] at first
        refine ⟨definition :: built, permutation.cons definition, ?_⟩
        rw [List.foldlM_cons, first]
        exact run
      · obtain ⟨⟨last, others⟩, rest, result⟩ := bind_eq_ok.mp passed
        cases result
        obtain ⟨built, permutation, run⟩ := induction rest
        exact ⟨built, (permutation.cons definition).trans List.perm_middle.symm, run⟩

theorem pass_of_foldlM_build {definitions : List Definition}
    (run : definitions.foldlM build builder = .ok next) :
    builder.pass definitions = .ok (next, []) := by
  induction definitions generalizing builder with
  | nil =>
      cases run
      rfl
  | cons definition definitions induction =>
      rw [List.foldlM_cons] at run
      obtain ⟨middle, first, rest⟩ := bind_eq_ok.mp run
      have resolved := first
      simp only [build, bind_eq_ok, resolve_eq_ok_iff] at resolved
      obtain ⟨left, leftFound, right, rightFound, added⟩ := resolved
      rw [pass]
      simp only [leftFound, rightFound, added]
      exact induction rest

theorem exists_order_of_addGates {definitions : List Definition}
    (added : builder.addGates definitions = .ok next) :
    ∃ order, definitions.Perm order ∧ order.foldlM build builder = .ok next := by
  induction size : definitions.length using Nat.strong_induction_on
    generalizing builder definitions with
  | _ size induction =>
      rw [addGates] at added
      obtain ⟨⟨middle, pending⟩, passed, rest⟩ := bind_eq_ok.mp added
      obtain ⟨built, permutation, run⟩ := exists_built_of_pass passed
      cases pending with
      | nil =>
          cases rest
          exact ⟨built, by simpa using permutation, run⟩
      | cons stuck pending =>
          dsimp only at rest
          split at rest
          · rename_i fewer
            obtain ⟨order, others, later⟩ := induction _ (size ▸ fewer) rest rfl
            refine ⟨built ++ order, permutation.trans (others.append_left built), ?_⟩
            rw [List.foldlM_append, run]
            exact later
          · cases rest

end Builder

end Aiger

end AndInverter
