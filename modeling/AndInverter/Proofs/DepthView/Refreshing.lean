import AndInverter.Proofs.DepthView.Levels
import AndInverter.Proofs.Rewriting.Runs

/-!
# When a view can be refreshed

A refresh looks up the level of everything that a gate or an output reads, and
sorts the gates.  So it succeeds for the networks that stay inside their table
and have no cycle, and for no others.
-/

namespace AndInverter

variable {Store : Type} [Network Store] {network : Store}

namespace Network

theorem acyclic_of_ofNetwork {network : Store} {view : DepthView Store}
    (seen : DepthView.ofNetwork network = .ok view) : Acyclic network := by
  unfold DepthView.ofNetwork at seen
  split at seen
  · cases seen
  · rename_i order sorted
    obtain ⟨ordered, members⟩ := ordered_of_topologicalSort sorted
    intro id cycle
    obtain ⟨child, reads, _⟩ := Relation.TransGen.head'_iff.mp cycle
    have listed : id ∈ order.reverse := by
      apply List.mem_reverse.mpr
      exact (members id).mpr ⟨id, mem_gates_of_reads reads, .refl⟩
    exact ordered.not_onCycle listed cycle

theorem bounded_of_ofNetwork {view : DepthView Store}
    (seen : DepthView.ofNetwork network = .ok view) : Bounded network := by
  unfold DepthView.ofNetwork at seen
  split at seen
  · cases seen
  · rename_i order sorted
    obtain ⟨ordered, members⟩ := ordered_of_topologicalSort sorted
    have listed : ∀ gate ∈ gates network, gate ∈ order.reverse :=
      fun gate member => List.mem_reverse.mpr ((members gate).mpr ⟨gate, member, .refl⟩)
    split at seen
    · cases seen
    · rename_i inside
      constructor
      · intro id child reads
        exact ordered.lt_size (ordered.reads_mem (listed id (mem_gates_of_reads reads)) reads)
      · exact fun gate member => ordered.lt_size (listed gate member)
      · simpa using inside

end Network

namespace DepthView

open Network

theorem exists_ofNetwork_of_bounded (bounded : Bounded network)
    (acyclic : Network.Acyclic network) : ∃ view, ofNetwork network = .ok view := by
  have inside : ¬ (roots network).any (size network ≤ ·) = true := by
    simp only [List.any_eq_true, decide_eq_true_eq, not_exists, not_and, Nat.not_le]
    exact bounded.roots
  rcases topologicalSort_ok_or_cycle bounded.closed bounded.gates with
    ⟨order, sorted⟩ | ⟨id, _, cycle, _⟩
  · unfold ofNetwork
    rw [sorted]
    dsimp only
    rw [if_neg inside]
    exact ⟨_, rfl⟩
  · exact absurd cycle (acyclic id)

theorem exists_ofNetwork_iff :
    (∃ view, ofNetwork network = .ok view) ↔ Bounded network ∧ Network.Acyclic network := by
  constructor
  · intro views
    obtain ⟨view, seen⟩ := views
    exact ⟨bounded_of_ofNetwork seen, acyclic_of_ofNetwork seen⟩
  · exact fun both => exists_ofNetwork_of_bounded both.1 both.2

end DepthView

end AndInverter
