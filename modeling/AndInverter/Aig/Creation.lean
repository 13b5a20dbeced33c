import AndInverter.Aig.Integrity
import AndInverter.Aig.Semantics
import AndInverter.DepthView.Calls

/-!
# Creating a gate

The calls that create a gate in a store, the value that each is to have, and
what one of them may do to the store.
-/

namespace AndInverter

namespace Connective

def value : Connective → Bool → Bool → Bool
  | .and, left, right => left && right
  | .nand, left, right => !(left && right)
  | .or, left, right => left || right

end Connective

namespace Aig

/-- A signal has this value under an assignment of the inputs, and no
other. -/
def HasValue (aig : Aig) (assignment : Nat → Bool) (edge : Edge) (value : Bool) : Prop :=
  ∀ other, aig.EdgeEvaluates assignment edge other ↔ other = value

/-- A call that creates a gate has returned. -/
inductive Creates : Aig → Aig → Prop
  | create {aig next : Aig} {connective : Connective} {left right edge : Edge}
      (created : connective.create aig left right = .ok (edge, next)) : Creates aig next
  | newAnd {aig next : Aig} {left right edge : Edge}
      (created : aig.newAnd left right = .ok (edge, next)) : Creates aig next

/-- A store with one more gate, in the first free slot.  Nothing else has
changed but the fanouts of the two nodes that the gate reads. -/
structure GateAdded (aig : Aig) (fanins : Fanins) (next : Aig) : Prop where
  size : next.size = aig.size + 1
  gate : next.node? aig.size = some (.gate aig.size fanins)
  /-- The conjunction is not trivial, and no gate has the same fanins. -/
  irreducible : fanins.trivial? = none
  fresh : ∀ gate, aig.gateFanins? gate ≠ some fanins
  nodes : ∀ id, id < aig.size → next.node? id = aig.node? id
  fanouts : ∀ id, id < aig.size → next.fanouts id =
    if fanins.first.node = id ∨ fanins.second.node = id then aig.fanouts id ++ [aig.size]
    else aig.fanouts id
  outputRefs : ∀ id, id < aig.size → next.outputRefs id = aig.outputRefs id
  inputs : next.inputs = aig.inputs
  outputs : next.outputs = aig.outputs

/-- What a call that creates a gate from two signals does to a store. -/
structure Creation (connective : Connective) (aig : Aig) (left right edge : Edge)
    (next : Aig) : Prop where
  value : ∀ assignment, ∃ first second,
    aig.HasValue assignment left first ∧ aig.HasValue assignment right second ∧
      next.HasValue assignment edge (connective.value first second)
  functions : ∀ id, aig.isDead id = false → ∀ assignment value,
    next.Evaluates assignment id value ↔ aig.Evaluates assignment id value
  growth : next = aig ∨ ∃ fanins, aig.GateAdded fanins next
  checked : next.checkIntegrity = .ok ()
  /-- Whatever is created afterwards, the call returns the same signal for
  either order of its arguments and adds nothing. -/
  canonical : ∀ later, Relation.ReflTransGen Creates next later →
    connective.create later left right = .ok (edge, later) ∧
      connective.create later right left = .ok (edge, later)

end Aig

end AndInverter
