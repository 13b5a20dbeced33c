import AndInverter.Aig.Capacity
import AndInverter.Proofs.DepthView.Growth

/-!
# Levels in 32 bits

No level is larger than the number of nodes: below a node there is one of each
smaller level.  Calls on a view keep to this, even where its levels are out of
date.  So words of 32 bits do for the levels of a graph with fewer nodes than
there are such words.
-/

namespace AndInverter

open Network

variable {Store : Type} [Network Store]

namespace DepthView

open Aig

/-- No level is larger than the number of levels. -/
def LevelsFit (view : DepthView Store) : Prop :=
  ∀ id, view.level id ≤ view.levels.size

section Calls

variable {view next : DepthView Store}

theorem levelsFit_of_ofNetwork {network : Store} (seen : ofNetwork network = .ok view) :
    view.LevelsFit := by
  intro id
  have truthful := truthful_of_ofNetwork seen
  rw [truthful.known]
  exact truthful.levels.level_le_size id

theorem LevelsFit.assignLevel (fits : view.LevelsFit) (network : Store) (left right gate : Edge) :
    ({ view with network := network }.assignLevel left right gate).LevelsFit := by
  unfold DepthView.assignLevel
  split
  · exact fits
  · rename_i unknown
    intro id
    have beyond : view.levels.size ≤ gate.node := Nat.le_of_not_lt unknown
    have leftFits := fits left.node
    have rightFits := fits right.node
    have known := fits id
    show (Array.setIfInBounds _ _ _).getD id 0 ≤ (Array.setIfInBounds _ _ _).size
    rw [getD_setIfInBounds, Array.size_setIfInBounds, getD_extend]
    split
    · rename_i own
      have room := own.2
      show max (view.level left.node) (view.level right.node) + 1 ≤ _
      omega
    · refine Nat.le_trans known ?_
      rw [extend, Array.size_append]
      exact Nat.le_add_right _ _

theorem Changes.levelsFit (changes : Changes view next) (fits : view.LevelsFit) :
    next.LevelsFit := by
  cases changes with
  | create creates =>
      obtain ⟨left, right, edge, created⟩ := creates.exists_createAnd
      obtain ⟨⟨gate, network⟩, _, result⟩ := bind_eq_ok.mp created
      cases result
      exact fits.assignLevel network left right edge
  | substitute substituted =>
      obtain ⟨⟨network, log⟩, _, result⟩ := bind_eq_ok.mp substituted
      cases result
      exact fits

end Calls

variable {first later : DepthView Aig}

theorem Changes.size_le (changes : Changes first later) :
    first.network.size ≤ later.network.size := by
  cases changes with
  | create creates =>
      obtain ⟨left, right, edge, created⟩ := creates.exists_createAnd
      have edits : Edits (fun _ => False) first.network later.network :=
        createAnd_edits (Rewriting.network_of_createAnd created)
      exact edits.size_le
  | substitute substituted =>
      obtain ⟨⟨network, log⟩, replaced, result⟩ := bind_eq_ok.mp substituted
      cases result
      exact (substitute_drains replaced).edits.size_le

theorem Changes.known_le (changes : Changes first later)
    (known : first.levels.size ≤ first.network.size) :
    later.levels.size ≤ later.network.size := by
  have grown := Nat.le_trans known changes.size_le
  cases changes with
  | create creates =>
      obtain ⟨left, right, edge, created⟩ := creates.exists_createAnd
      obtain ⟨⟨gate, network⟩, _, result⟩ := bind_eq_ok.mp created
      cases result
      rw [Rewriting.network_assignLevel] at grown ⊢
      unfold DepthView.assignLevel
      split
      · exact grown
      · show (Array.setIfInBounds _ _ _).size ≤ _
        rw [Array.size_setIfInBounds]
        exact Nat.le_of_eq (size_extend _ _ grown)
  | substitute substituted =>
      obtain ⟨⟨network, log⟩, _, result⟩ := bind_eq_ok.mp substituted
      cases result
      exact grown

/-- With fewer than 2^32 nodes all levels are words of 32 bits, and so is the
depth, whatever calls followed on the last refresh. -/
theorem levels_lt_limit {aig : Aig} (seen : ofNetwork aig = .ok first)
    (changes : Relation.ReflTransGen Changes first later)
    (few : later.network.size < Counter.limit) :
    later.depth < Counter.limit ∧ ∀ id, later.level id < Counter.limit := by
  have truthful := truthful_of_ofNetwork seen
  have fits : later.LevelsFit ∧ later.levels.size ≤ later.network.size ∧
      first.network.size ≤ later.network.size := by
    clear few
    induction changes with
    | refl => exact ⟨levelsFit_of_ofNetwork seen, Nat.le_of_eq truthful.known, Nat.le_refl _⟩
    | tail _ last induction =>
        obtain ⟨fits, known, grown⟩ := induction
        exact ⟨last.levelsFit fits, last.known_le known, Nat.le_trans grown last.size_le⟩
  obtain ⟨fits, known, grown⟩ := fits
  constructor
  · rw [(frozen_of_changes changes).1]
    rcases truthful.depth.attained with zero | ⟨root, _, deepest⟩
    · rw [zero]
      decide
    · have highest : first.level root ≤ first.network.size := truthful.levels.level_le_size root
      omega
  · intro id
    have height := fits id
    omega

end DepthView

end AndInverter
