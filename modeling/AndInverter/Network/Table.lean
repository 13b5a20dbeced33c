import AndInverter.Network

/-!
# Fanin tables

The plainest network: a row of fanins for each identifier, and the outputs.
Any number of fanins and any cycle is allowed, and nothing can be built.
-/

namespace AndInverter

/-- A network given by its fanin lists. -/
structure FaninTable where
  rows : Array (List Edge)
  outputs : List Edge

namespace FaninTable

def row (table : FaninTable) (id : Nat) : List Edge :=
  table.rows.getD id []

def gates (table : FaninTable) : List Nat :=
  (List.range table.rows.size).filter fun id => !(table.row id).isEmpty

theorem row_of_size_le {table : FaninTable} {id : Nat}
    (beyond : table.rows.size ≤ id) : table.row id = [] := by
  simp [row, Array.getD, Nat.not_lt.mpr beyond]

theorem mem_gates {table : FaninTable} {id : Nat} :
    id ∈ table.gates ↔ table.row id ≠ [] := by
  simp only [gates, List.mem_filter, List.mem_range, Bool.not_eq_true',
    List.isEmpty_eq_false_iff, ne_eq, and_iff_right_iff_imp]
  intro present
  exact Nat.lt_of_not_le fun beyond => present (row_of_size_le beyond)

instance : Network FaninTable where
  size table := table.rows.size
  isDead table id := decide (table.rows.size ≤ id)
  isAnd table id := !(table.row id).isEmpty
  isOr _ _ := false
  gates := gates
  fanins := row
  outputs table := table.outputs
  createAnd _ _ _ := .error .assertion
  substitute _ _ _ _ := .error .assertion
  fanins_of_size_le _ _ := row_of_size_le
  mem_gates_of_fanins _ _ := mem_gates.mpr

end FaninTable

end AndInverter
