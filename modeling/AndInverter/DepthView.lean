import AndInverter.Traversal.Topological

/-!
# Depth views

A depth view wraps a network and remembers the level of each node, the depth
of the network and the nodes on its critical paths.  Levels and flags are
those of the latest refresh; a gate built through the view has a level at
once and joins a critical path at the next refresh only.
-/

namespace AndInverter

/-- A network with the levels and the critical nodes of some moment. -/
structure DepthView (Store : Type) where
  network : Store
  levels : Array Nat
  critical : Array Bool
  depth : Nat

namespace DepthView

variable {Store : Type}

/-- The level of a node, 0 if the view does not know it. -/
def level (view : DepthView Store) (id : Nat) : Nat :=
  view.levels.getD id 0

/-- Whether a node was on a critical path, false if the view does not know
it. -/
def isCritical (view : DepthView Store) (id : Nat) : Bool :=
  view.critical.getD id false

def criticalNodes (view : DepthView Store) : List Nat :=
  (List.range view.critical.size).filter view.isCritical

variable [Network Store]

/-- One more than the largest level below a node, 0 for a node without
fanins. -/
def levelAbove (network : Store) (levels : Array Nat) (id : Nat) : Nat :=
  ((Network.children network id).map fun child => levels.getD child 0 + 1).foldl max 0

/-- The levels of the nodes of a topological order, 0 elsewhere. -/
def levelsOf (network : Store) (order : List Nat) : Array Nat :=
  order.foldl (fun levels id => levels.setIfInBounds id (levelAbove network levels id))
    (Array.replicate (Network.size network) 0)

def depthOf (network : Store) (levels : Array Nat) : Nat :=
  ((Network.roots network).map fun id => levels.getD id 0).foldl max 0

/-- Marks the fanins of a marked node that are one level below it. -/
def markBelow (network : Store) (levels : Array Nat) (marks : Array Bool) (id : Nat) :
    Array Bool :=
  if marks.getD id false then
    (Network.children network id).foldl
      (fun marks child =>
        if levels.getD child 0 + 1 = levels.getD id 0 then marks.setIfInBounds child true
        else marks)
      marks
  else
    marks

/-- Marks the deepest outputs and, consumers first, all that is on a longest
path below them. -/
def criticalOf (network : Store) (order : List Nat) (levels : Array Nat) : Array Bool :=
  let deepest := (Network.roots network).filter fun id =>
    levels.getD id 0 = depthOf network levels
  let marks := deepest.foldl (fun marks id => marks.setIfInBounds id true)
    (Array.replicate (Network.size network) false)
  order.reverse.foldl (markBelow network levels) marks

/-- The view of a network as it is now.  The gates have to be free of cycles,
and the outputs have to name nodes of the table. -/
def ofNetwork (network : Store) : Except Failure (DepthView Store) :=
  match topologicalSort network (Network.gates network) with
  | .error _ => .error .assertion
  | .ok order =>
    if (Network.roots network).any (Network.size network ≤ ·) then
      .error .assertion
    else
      let levels := levelsOf network order
      .ok {
        network := network
        levels := levels
        critical := criticalOf network order levels
        depth := depthOf network levels }

def refresh (view : DepthView Store) : Except Failure (DepthView Store) :=
  ofNetwork view.network

/-- A table brought to the given size, with a default for what is new. -/
def extend {Entry : Type} (table : Array Entry) (size : Nat) (default : Entry) :
    Array Entry :=
  table ++ Array.replicate (size - table.size) default

/-- Gives a gate that the view does not know yet its level. -/
def assignLevel (view : DepthView Store) (left right gate : Edge) : DepthView Store :=
  if gate.node < view.levels.size then view
  else
    let size := Network.size view.network
    let above := max (view.level left.node) (view.level right.node) + 1
    { view with
      levels := (extend view.levels size 0).setIfInBounds gate.node above
      critical := extend view.critical size false }

def createAnd (view : DepthView Store) (left right : Edge) :
    Except Failure (Edge × DepthView Store) := do
  let (gate, network) ← Network.createAnd view.network left right
  return (gate, { view with network := network }.assignLevel left right gate)

instance : Network (DepthView Store) where
  size view := Network.size view.network
  isDead view := Network.isDead view.network
  isAnd view := Network.isAnd view.network
  isOr view := Network.isOr view.network
  gates view := Network.gates view.network
  fanins view := Network.fanins view.network
  outputs view := Network.outputs view.network
  createAnd := createAnd
  substitute fuel view old new := do
    let (network, changes) ← Network.substitute fuel view.network old new
    return ({ view with network := network }, changes)
  fanins_of_size_le view := Network.fanins_of_size_le view.network
  mem_gates_of_fanins view := Network.mem_gates_of_fanins view.network

end DepthView

end AndInverter
