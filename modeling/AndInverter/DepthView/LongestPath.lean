import AndInverter.DepthView
import AndInverter.Network.Reachability

/-!
# Longest paths

What levels, depth and critical flags of a view stand for: levels agree with
the fanins, the depth is the largest level of an output, and a node is
critical if a walk of that length from an output down to a leaf goes through
it.
-/

namespace AndInverter

namespace DepthView

variable {Store : Type} [Network Store]

structure DepthAgrees (view : DepthView Store) : Prop where
  bound : ∀ root ∈ Network.roots view.network, view.level root ≤ view.depth
  attained : view.depth = 0 ∨ ∃ root ∈ Network.roots view.network, view.level root = view.depth

/-- A walk of the given length from an output down to a leaf goes through a
node. -/
def OnWalk (network : Store) (length id : Nat) : Prop :=
  ∃ root ∈ Network.roots network, ∃ above below leaf,
    Network.Walk network above root id ∧ Network.Walk network below id leaf ∧
      Network.children network leaf = [] ∧ above + below = length

/-- The greatest length of a walk from an output down to a node. -/
structure LongestAbove (network : Store) (id length : Nat) : Prop where
  attained : ∃ root ∈ Network.roots network, Network.Walk network length root id
  bound : ∀ root ∈ Network.roots network, ∀ other,
    Network.Walk network other root id → other ≤ length

/-- The view tells the truth about the network it wraps. -/
structure UpToDate (view : DepthView Store) : Prop where
  levels : Network.LevelsAgree view.network view.level
  depth : view.DepthAgrees
  critical : ∀ id, view.isCritical id = true ↔ OnWalk view.network view.depth id

end DepthView

end AndInverter
