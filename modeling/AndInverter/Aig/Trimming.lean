import AndInverter.Aig.Isomorphism

/-!
# Trimmed graphs

A gate dangles if nothing is recorded to read it.  A trimmed graph has kept
the gates below its outputs and lost all others.
-/

namespace AndInverter

namespace Aig

/-- A gate that no gate and no output is recorded to read. -/
def Dangles (aig : Aig) (id : Nat) : Prop :=
  aig.isGate id = true ∧ aig.fanoutSize id = 0

/-- A graph is what another one has below its outputs.  The nodes that are left
are as they were, and their fanouts are the ones that are left, in order. -/
structure Trims (aig next : Aig) : Prop where
  gates : ∀ id, next.isGate id = true ↔ aig.isGate id = true ∧ aig.BelowOutputs id
  kept : ∀ id, next.isDead id = false → next.node? id = aig.node? id
  others : ∀ id, aig.isGate id = false → next.node? id = aig.node? id
  inputs : next.inputs = aig.inputs
  outputs : next.outputs = aig.outputs
  fanouts : ∀ id, next.isDead id = false → next.fanouts id = (aig.fanouts id).filter next.isGate

end Aig

end AndInverter
