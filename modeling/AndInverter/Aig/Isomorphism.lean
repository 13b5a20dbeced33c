import AndInverter.Aig.Semantics

/-!
# Isomorphic cones

Two graphs agree below their outputs if a renaming of nodes takes the one to
the other: it fixes the constant, matches inputs and outputs by position, and
takes the gates below the outputs of the first graph to all gates of the
second, one to one.  Fanins match as unordered pairs.
-/

namespace AndInverter

def Edge.rename (image : Nat → Nat) (edge : Edge) : Edge :=
  { edge with node := image edge.node }

namespace Aig

def BelowOutputs (aig : Aig) (id : Nat) : Prop :=
  Network.ReachedFrom aig (Network.roots aig) id

/-- The constant, the inputs, and what lies below the outputs. -/
def InCone (aig : Aig) (id : Nat) : Prop :=
  id = 0 ∨ id ∈ aig.inputs ∨ aig.BelowOutputs id

/-- A renaming that takes the part of a graph below its outputs to all of
another graph. -/
structure ConeIsomorphism (source target : Aig) (image : Nat → Nat) : Prop where
  constant : image 0 = 0
  inputs : target.inputs = source.inputs.map image
  outputs : target.outputs = source.outputs.map (Edge.rename image)
  gate : ∀ id fanins, source.BelowOutputs id → source.gateFanins? id = some fanins →
    target.gateFanins? (image id) =
      some (.ordered (fanins.first.rename image) (fanins.second.rename image))
  injective : ∀ first second, source.InCone first → source.InCone second →
    image first = image second → first = second
  /-- Every node of the target comes from one of its kind. -/
  surjective : ∀ id, target.isDead id = false →
    ∃ origin, source.InCone origin ∧ source.isGate origin = target.isGate id ∧
      image origin = id

end Aig

end AndInverter
