import AndInverter.Proofs.DepthView.Building
import AndInverter.Proofs.Substitution.Folding

/-!
# Levels through a substitution

If a settled substitution replaces a node by one that is no higher, nothing
gets higher: what has taken the place of a node is no higher than the node
was.
-/

namespace AndInverter

open Network DepthView

namespace Aig

variable {aig next : Aig} {retired : List Nat} {substitution : Substitution} {image : Nat → Nat}
  {level later : Nat → Nat}

theorem level_le_of_operands (agree : LevelsAgree next later) {id bound : Nat} {nodes : Set Nat}
    (operands : next.operands id = image '' nodes)
    (below : ∀ node ∈ nodes, later (image node) < bound) : later id ≤ bound := by
  by_cases leaf : children next id = []
  · rw [agree.leaf id leaf]
    exact Nat.zero_le _
  · obtain ⟨child, reads, highest⟩ := agree.attained id leaf
    have member : child ∈ next.operands id := reads_iff.mp reads
    rw [operands] at member
    obtain ⟨node, former, rfl⟩ := member
    rw [highest]
    exact below node former

theorem level_of_operands_eq_empty (agree : LevelsAgree next later) {id : Nat}
    (nothing : next.operands id = ∅) : later id = 0 :=
  level_of_not_isGate agree (isGate_eq_false_iff.mpr nothing)

/-- What takes the place of a node other than the substituted one is no
higher than the node, if that is so for its operands. -/
theorem Folding.level_le_of_operands (folding : Folding aig retired substitution image next [])
    (agree : LevelsAgree aig level) (agree' : LevelsAgree next later) {id : Nat}
    (notOld : id ≠ substitution.old)
    (below : ∀ node ∈ aig.operands id, later (image node) ≤ level node) :
    later (image id) ≤ level id := by
  have lower : ∀ node ∈ aig.operands id, later (image node) < level id :=
    fun node reads => Nat.lt_of_le_of_lt (below node reads)
      (agree.above id node (reads_iff.mpr reads))
  cases isGate : aig.isGate id with
  | false =>
      have nothing : next.isGate id = false := by
        rw [← Bool.not_eq_true]
        intro gate
        rw [folding.isGate_before gate] at isGate
        cases isGate
      rw [folding.image_of_not_isGate isGate notOld, level_of_not_isGate agree' nothing]
      exact Nat.zero_le _
  | true =>
      rcases folding.follows_eq isGate notOld with ⟨node, reads, same⟩ | nothing | operands
      · rw [← same]
        exact Nat.le_of_lt (lower node reads)
      · rw [level_of_operands_eq_empty agree' nothing]
        exact Nat.zero_le _
      · exact Aig.level_le_of_operands agree' operands lower

/-- A substitution by a node that is no higher raises no level. -/
theorem Folding.level_image_le (folding : Folding aig retired substitution image next [])
    (agree : LevelsAgree aig level) (agree' : LevelsAgree next later)
    (height : level substitution.new.node ≤ level substitution.old) (id : Nat) :
    later (image id) ≤ level id := by
  induction bound : level id using Nat.strongRecOn generalizing id with
  | ind top induction =>
    subst bound
    -- the new node may be as high as the old one, but it is not the old one
    have other : ∀ node, level node ≤ level id → node ≠ substitution.old →
        later (image node) ≤ level node := by
      intro node low notOld
      apply folding.level_le_of_operands agree agree' notOld
      intro operand reads
      have below := agree.above node operand (reads_iff.mpr reads)
      exact induction (level operand) (by omega) operand rfl
    by_cases isOld : id = substitution.old
    · subst isOld
      have new := other substitution.new.node height folding.different
      rw [folding.image_new] at new
      rw [folding.old]
      exact Nat.le_trans new height
    · exact other id (Nat.le_refl _) isOld

end Aig

end AndInverter
