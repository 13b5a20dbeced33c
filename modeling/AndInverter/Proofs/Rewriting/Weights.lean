import AndInverter.Proofs.Rewriting.Depth
import Mathlib.Algebra.Order.BigOperators.Group.Finset
import Mathlib.Order.Interval.Finset.Nat

/-!
# The weight of a network

A gate weighs five to the power of its level.  A rewrite takes a gate away
and adds four gates at most.  If it gains a level, the new gates together
weigh less than the old one; otherwise the weight grows by no more than the
depth allows.  So the gainless rewrites of a run limit all of its rewrites.
-/

namespace AndInverter

namespace Rewriting

open DepthView Aig

def weight (view : DepthView Aig) : Nat :=
  ∑ id ∈ view.network.gates.toFinset, 5 ^ view.level id

variable {parameters : Parameters} {first view found fresh next : DepthView Aig}
  {rewrites gainless : Nat} {rule : Rule} {substitution : Substitution}

private theorem mem_gates_toFinset {aig : Aig} {id : Nat} :
    id ∈ aig.gates.toFinset ↔ aig.isGate id = true :=
  List.mem_toFinset.trans mem_gates

theorem weight_le_of_extends (grown : view.Extends next) {count height : Nat}
    (size : next.network.size ≤ view.network.size + count)
    (low : ∀ id, view.network.size ≤ id → id < next.network.size → next.level id ≤ height) :
    weight next ≤ weight view + count * 5 ^ height := by
  have sorted : next.network.gates.toFinset ⊆
      view.network.gates.toFinset ∪ Finset.Ico view.network.size next.network.size := by
    intro id isGate
    obtain ⟨fanins, stored⟩ := isGate_iff.mp (mem_gates_toFinset.mp isGate)
    rw [Finset.mem_union, Finset.mem_Ico, mem_gates_toFinset]
    by_cases old : id < view.network.size
    · left
      rw [grown.gates id old] at stored
      exact isGate_iff.mpr ⟨fanins, stored⟩
    · exact .inr ⟨Nat.le_of_not_lt old, lt_size_of_gateFanins? stored⟩
  have former : ∑ id ∈ view.network.gates.toFinset, 5 ^ next.level id = weight view := by
    apply Finset.sum_congr rfl
    intro id isGate
    obtain ⟨fanins, stored⟩ := isGate_iff.mp (mem_gates_toFinset.mp isGate)
    rw [grown.level id (lt_size_of_gateFanins? stored)]
  have added : ∑ id ∈ Finset.Ico view.network.size next.network.size, 5 ^ next.level id ≤
      count * 5 ^ height := by
    calc ∑ id ∈ Finset.Ico view.network.size next.network.size, 5 ^ next.level id
        ≤ (Finset.Ico view.network.size next.network.size).card • 5 ^ height := by
          apply Finset.sum_le_card_nsmul
          intro id new
          obtain ⟨beyond, inside⟩ := Finset.mem_Ico.mp new
          exact Nat.pow_le_pow_right (by decide) (low id beyond inside)
      _ ≤ count * 5 ^ height := by
          rw [Nat.card_Ico, Nat.nsmul_eq_mul]
          exact Nat.mul_le_mul_right _ (by omega)
  calc weight next
      ≤ ∑ id ∈ view.network.gates.toFinset ∪
          Finset.Ico view.network.size next.network.size, 5 ^ next.level id :=
        Finset.sum_le_sum_of_subset sorted
    _ ≤ ∑ id ∈ view.network.gates.toFinset, 5 ^ next.level id +
          ∑ id ∈ Finset.Ico view.network.size next.network.size, 5 ^ next.level id := by
        rw [← Finset.sum_union_inter]
        exact Nat.le_add_right _ _
    _ ≤ weight view + count * 5 ^ height := by
        rw [former]
        exact Nat.add_le_add_left added _

/-- A settled substitution by a node that is no higher takes the old gate
away, and makes none heavier. -/
theorem weight_add_le_of_folding {image : Nat → Nat} {retired : List Nat}
    (folding : Folding found.network retired substitution image fresh.network [])
    (tracks : found.Tracks) (levels : Network.LevelsAgree fresh.network fresh.level)
    (isGate : found.network.isGate substitution.old = true)
    (height : found.level substitution.new.node ≤ found.level substitution.old) :
    weight fresh + 5 ^ found.level substitution.old ≤ weight found := by
  have fewer : fresh.network.gates.toFinset ⊆
      found.network.gates.toFinset.erase substitution.old := by
    intro id member
    have still := mem_gates_toFinset.mp member
    refine Finset.mem_erase.mpr ⟨?_, mem_gates_toFinset.mpr (folding.isGate_before still)⟩
    rintro rfl
    rw [folding.old_gone] at still
    cases still
  have lighter : weight fresh ≤
      ∑ id ∈ fresh.network.gates.toFinset, 5 ^ found.level id := by
    apply Finset.sum_le_sum
    intro id member
    have notOld := (Finset.mem_erase.mp (fewer member)).1
    have level := folding.level_image_le tracks.levels levels height id
    rw [folding.image_of_isGate (mem_gates_toFinset.mp member) notOld] at level
    exact Nat.pow_le_pow_right (by decide) level
  have rest : weight fresh ≤
      ∑ id ∈ found.network.gates.toFinset.erase substitution.old, 5 ^ found.level id :=
    Nat.le_trans lighter (Finset.sum_le_sum_of_subset fewer)
  calc weight fresh + 5 ^ found.level substitution.old
      ≤ ∑ id ∈ found.network.gates.toFinset.erase substitution.old, 5 ^ found.level id +
          5 ^ found.level substitution.old := Nat.add_le_add_right rest _
    _ = weight found := Finset.sum_erase_add _ _ (mem_gates_toFinset.mpr isGate)

/-- A rule builds at most four gates, none of them higher than the node.  If
the replacement is lower than the node, so are they all. -/
theorem Finds.weight_le (current : Current view)
    (finds : Finds parameters view rule substitution found) {height : Nat}
    (top : found.level substitution.new.node ≤ height)
    (bound : found.level substitution.old ≤ height + 1) :
    weight found ≤ weight view + 4 * 5 ^ height := by
  obtain ⟨recipe, examined, _, builds⟩ := finds.recipe
  have suits :=
    Rule.suits_of_examine current.truthful current.bookkeeping.toReferences examined
  obtain ⟨fanins, stored⟩ := isGate_iff.mp (finds.isGate current)
  have same := builds.grown.level _ (lt_size_of_gateFanins? stored)
  have few : found.network.size ≤ view.network.size + 4 :=
    Nat.le_trans builds.size (Nat.add_le_add_left suits.joins _)
  apply weight_le_of_extends builds.grown few
  intro id beyond inside
  rcases builds.lower id beyond inside with rfl | lower
  · exact top
  · have highest := suits.height
    omega

theorem Finds.weight_step (current : Current view)
    (finds : Finds parameters view rule substitution found) {image : Nat → Nat}
    {retired : List Nat}
    (folding : Folding found.network retired substitution image fresh.network [])
    (refreshed : DepthView.ofNetwork fresh.network = .ok fresh) :
    (found.level substitution.new.node < found.level substitution.old →
        weight fresh < weight view) ∧
      weight fresh ≤ weight view + 3 * 5 ^ found.level substitution.old := by
  obtain ⟨fanins, stored⟩ := isGate_iff.mp (finds.isGate current)
  have isGate : found.network.isGate substitution.old = true := by
    rw [Aig.isGate, finds.grown.gates _ (lt_size_of_gateFanins? stored), stored]
    rfl
  have taken := weight_add_le_of_folding folding finds.tracks
    (truthful_of_ofNetwork refreshed).levels isGate (finds.level_le current)
  constructor
  · intro lower
    obtain ⟨height, level⟩ := Nat.exists_eq_add_one_of_ne_zero (Nat.ne_zero_of_lt lower)
    rw [level] at lower
    have added := finds.weight_le current (Nat.le_of_lt_succ lower) (Nat.le_of_eq level)
    rw [level, Nat.pow_succ] at taken
    have positive : 0 < 5 ^ height := Nat.pow_pos (by decide)
    omega
  · have added := finds.weight_le current (finds.level_le current) (Nat.le_succ _)
    omega

theorem Finds.level_le_depth (current : Current view)
    (finds : Finds parameters view rule substitution found) :
    found.level substitution.old ≤ view.depth := by
  obtain ⟨recipe, examined, _, _⟩ := finds.recipe
  obtain ⟨fanins, stored⟩ := isGate_iff.mp (finds.isGate current)
  rw [finds.grown.level _ (lt_size_of_gateFanins? stored)]
  apply current.truthful.bounded
  exact Rule.isCritical_of_examine current.bookkeeping.toReferences examined

/-- The gainless rewrites of a run limit all of its rewrites. -/
theorem Advances.rewrites_le (start : Current first)
    (settling : Settling parameters first.network)
    (advances : Advances parameters first rewrites gainless view) :
    rewrites + weight view ≤ weight first + gainless * 5 ^ (first.depth + 1) := by
  induction advances with
  | start => omega
  | @rewrite rewrites gainless _ view found fresh substitution next _ earlier due substituted
      refreshed induction =>
      have current := earlier.current start
      obtain ⟨_, finds⟩ := finds_of_due current due
      obtain ⟨image, last, _, _, drains, folding, _, _⟩ :=
        finds.exists_folding current (settling.settles start earlier due)
      obtain ⟨rfl, _⟩ := drains.unique (substitute_drains substituted)
      obtain rfl := network_of_ofNetwork refreshed
      obtain ⟨lighter, heavier⟩ := finds.weight_step current folding refreshed
      split
      · have shallow : found.level substitution.old ≤ first.depth := by
          apply Nat.le_trans (finds.level_le_depth current)
          exact (earlier.shallower start settling).depth_le start.truthful.depth
            current.truthful.depth
        have power := Nat.pow_le_pow_right (show 0 < 5 by decide) shallow
        have positive : 0 < 5 ^ first.depth := Nat.pow_pos (by decide)
        rw [Nat.pow_succ] at induction ⊢
        rw [Nat.add_mul]
        omega
      · rename_i lower
        have strictly := lighter (Nat.lt_of_not_le lower)
        show rewrites + 1 + weight fresh ≤ weight first + gainless * 5 ^ (first.depth + 1)
        omega

end Rewriting

end AndInverter
