import AndInverter.Network

/-!
# Marked disjunctions

A network some of whose gates are declared to be disjunctions.  Apart from
the two questions whether a node is a conjunction or a disjunction, everything
is answered by the network underneath.
-/

namespace AndInverter

/-- A network with the list of the nodes that count as disjunctions. -/
structure WithDisjunctions (Store : Type) where
  network : Store
  disjunctions : List Nat

namespace WithDisjunctions

variable {Store : Type} [Network Store]

instance : Network (WithDisjunctions Store) where
  size marked := Network.size marked.network
  isDead marked := Network.isDead marked.network
  isAnd marked id :=
    !marked.disjunctions.contains id && Network.isAnd marked.network id
  isOr marked id :=
    marked.disjunctions.contains id || Network.isOr marked.network id
  gates marked := Network.gates marked.network
  fanins marked := Network.fanins marked.network
  outputs marked := Network.outputs marked.network
  createAnd marked left right := do
    let (edge, network) ← Network.createAnd marked.network left right
    return (edge, { marked with network := network })
  substitute fuel marked old new := do
    let (network, changes) ← Network.substitute fuel marked.network old new
    return ({ marked with network := network }, changes)
  fanins_of_size_le marked := Network.fanins_of_size_le marked.network
  mem_gates_of_fanins marked := Network.mem_gates_of_fanins marked.network

end WithDisjunctions

end AndInverter
