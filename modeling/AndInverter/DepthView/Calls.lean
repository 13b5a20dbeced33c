import AndInverter.DepthView.LongestPath

/-!
# Calls on a view

What can happen to a view between two refreshes: gates are created through it,
and nodes are substituted through it.  `Refreshed` is what it says right after
a refresh, and for how long.
-/

namespace AndInverter

inductive Connective where
  | and
  | nand
  | or
  deriving DecidableEq

namespace Connective

variable {Store : Type} [Network Store]

def create (connective : Connective) (store : Store) (left right : Edge) :
    Except Failure (Edge × Store) :=
  match connective with
  | .and => Network.createAnd store left right
  | .nand => Network.createNand store left right
  | .or => Network.createOr store left right

end Connective

namespace DepthView

variable {Store : Type} [Network Store]

/-- A call that creates a gate has returned. -/
def Creates (view next : DepthView Store) : Prop :=
  ∃ (connective : Connective) (left right edge : Edge),
    connective.create view left right = .ok (edge, next)

/-- A call that changes the network has returned. -/
inductive Changes : DepthView Store → DepthView Store → Prop
  | create {view next : DepthView Store} (creates : view.Creates next) : Changes view next
  | substitute {view next : DepthView Store} {fuel old : Nat} {new : Edge}
      {changes : List Change}
      (substituted : Network.substitute fuel view old new = .ok (next, changes)) :
      Changes view next

/-- A view after a refresh.  Its depth and its flags stay as they are whatever
is done to the network, and no flag is set beyond the table that it saw. -/
structure Refreshed (stale fresh : DepthView Store) : Prop where
  network : fresh.network = stale.network
  levels : Network.LevelsAgree fresh.network fresh.level
  depth : fresh.DepthAgrees
  frozen : ∀ later, Relation.ReflTransGen Changes fresh later →
    later.depth = fresh.depth ∧ ∀ id, later.isCritical id = fresh.isCritical id
  unknown : ∀ id, Network.size fresh.network ≤ id → fresh.isCritical id = false

end DepthView

end AndInverter
