import AndInverter.Aig.Integrity
import AndInverter.Aig.WellFormed

/-!
# Output counters in a table of their own

The slots of a store carry one output counter each.  Here the counters come
in a table of their own, which may have any length: what the integrity check
does with such a table, and the laws of a store whose counters it holds.
-/

namespace AndInverter

namespace Aig

def countOutput (aig : Aig) (counted : Array Nat) (output : Edge) :
    Except Failure (Array Nat) := do
  aig.checkReads output
  require (decide (output.node < counted.size))
  return counted.modify output.node (· + 1)

/-- Checks the laws of a well-formed store whose output counters are the
recorded ones. -/
def checkCounters (aig : Aig) (recorded : Array Nat) : Except Failure Unit := do
  (List.range aig.size).forM aig.checkSlot
  aig.inputs.toList.forM aig.checkInput
  let counted ← aig.outputs.toList.foldlM aig.countOutput (Array.replicate aig.size 0)
  demand (counted == recorded) .staleReferences
  aig.table.toList.forM aig.checkEntry
  let _ ← topologicalSort aig aig.liveNodes

/-- The laws of a store whose output counters are the recorded ones. -/
structure WellFormedWith (aig : Aig) (recorded : Array Nat) : Prop extends Placed aig where
  /-- The fanins of a gate are in order, on two nodes of the store other than
  the constant. -/
  operands : ∀ gate fanins, aig.gateFanins? gate = some fanins →
    fanins.first < fanins.second ∧ fanins.first.node ≠ fanins.second.node ∧
      fanins.first.node ≠ 0 ∧ fanins.second.node ≠ 0 ∧
      aig.isDead fanins.first.node = false ∧ aig.isDead fanins.second.node = false
  hashed : aig.Hashed
  entries : ∀ (fanins : Fanins) (gate : Nat), aig.table[fanins]? = some gate →
    aig.gateFanins? gate = some fanins
  fanouts : ∀ id, aig.isDead id = false → aig.FanoutsAgree id
  inputs : aig.InputsStored
  outputs : ∀ output ∈ aig.outputs, aig.isDead output.node = false
  /-- There is one counter for each slot, the number of outputs on it. -/
  counted : ∀ id, recorded[id]? =
    if id < aig.size then some (aig.outputs.countP (·.node == id)) else none
  acyclic : aig.Acyclic

/-- The outcome of a check that decides a law: it succeeds if the law holds,
and reports a fault otherwise. -/
structure Decides (outcome : Except Failure Unit) (law : Prop) : Prop where
  accepts : outcome = .ok () ↔ law
  refuses : ¬ law → ∃ fault, outcome = .error (.fault fault)

end Aig

end AndInverter
