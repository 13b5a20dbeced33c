import AndInverter.Error

/-!
# Networks

What a traversal, a depth view or a rewriting run needs to know of a logic
network, whatever stores it.  The operations that change a network return the
changed one.  Two laws tie the queries together: identifiers beyond the table
read as nodes without fanins, and whatever has fanins is listed as a gate.
-/

namespace AndInverter

/-- A structural change made while a node is substituted. -/
inductive Change where
  /-- Every use of `old` is being redirected to `new`. -/
  | substituting (old : Nat) (new : Edge)
  /-- A node that nothing reads any more leaves the network. -/
  | reclaiming (node : Nat)
  deriving DecidableEq

/-- A logic network of conjunctions. -/
class Network (Store : Type) where
  /-- The number of identifiers handed out so far. -/
  size : Store → Nat
  isDead : Store → Nat → Bool
  isAnd : Store → Nat → Bool
  isOr : Store → Nat → Bool
  /-- The gates, in ascending order. -/
  gates : Store → List Nat
  fanins : Store → Nat → List Edge
  outputs : Store → List Edge
  /-- The conjunction of two edges, found or built. -/
  createAnd : Store → Edge → Edge → Except Failure (Edge × Store)
  /-- Redirects every use of a node to an edge, in a bounded number of steps. -/
  substitute : Nat → Store → Nat → Edge → Except Failure (Store × List Change)
  /-- Beyond the table there are no fanins. -/
  fanins_of_size_le : ∀ store id, size store ≤ id → fanins store id = []
  /-- What has fanins is a gate. -/
  mem_gates_of_fanins : ∀ store id, fanins store id ≠ [] → id ∈ gates store

namespace Network

variable {Store : Type} [Network Store]

def createNand (store : Store) (left right : Edge) :
    Except Failure (Edge × Store) := do
  let (edge, store) ← createAnd store left right
  return (edge.not, store)

def createOr (store : Store) (left right : Edge) :
    Except Failure (Edge × Store) := do
  let (edge, store) ← createAnd store left.not right.not
  return (edge.not, store)

def children (store : Store) (id : Nat) : List Nat :=
  (fanins store id).map (·.node)

def roots (store : Store) : List Nat :=
  (outputs store).map (·.node)

end Network

end AndInverter
