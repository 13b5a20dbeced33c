import AndInverter.Aig.Substitution
import AndInverter.Traversal.Topological

/-!
# And-inverter graphs as networks

Building on a graph with checked arguments, and the graph as an instance of a
network.
-/

namespace AndInverter

/-- A gate on two signals, which are put in order.  Identifier 0 belongs to
the constant. -/
def Node.newGate (id : Nat) (left right : Edge) : Except Failure Node := do
  require (id != 0)
  return .gate id (.ordered left right)

namespace Aig

/-- The conjunction of two edges, both of which have to read live nodes. -/
def createAnd (aig : Aig) (left right : Edge) : Except Failure (Edge × Aig) :=
  if aig.isDead left.node || aig.isDead right.node then
    .error .assertion
  else
    .ok (aig.conjoin left right)

instance : Network Aig where
  size := size
  isDead := isDead
  isAnd := isGate
  isOr _ _ := false
  gates := gates
  fanins := fanins
  outputs aig := aig.outputs.toList
  createAnd := createAnd
  substitute := substitute
  fanins_of_size_le _ _ := fanins_of_size_le
  mem_gates_of_fanins _ _ present := mem_gates.mpr (isGate_of_fanins present)

/-- Refuses an edge that reads no node of the store. -/
def checkEdge (aig : Aig) (edge : Edge) : Except Failure Unit :=
  if aig.isDead edge.node then
    .error (.error (.nodeDoesNotExist edge.node))
  else
    .ok ()

def addOutput (aig : Aig) (edge : Edge) : Except Failure Aig := do
  aig.checkEdge edge
  return { aig.adjustRefs edge.node (· + 1) with outputs := aig.outputs.push edge }

def newAnd (aig : Aig) (left right : Edge) : Except Failure (Edge × Aig) := do
  aig.checkEdge left
  aig.checkEdge right
  aig.createAnd left right

/-- The nodes below the outputs, fanins first. -/
def sorted (aig : Aig) : Except Failure (List Nat) :=
  topologicalSort aig (Network.roots aig)

end Aig

end AndInverter
