import AndInverter.Network
import Std.Data.TreeSet

/-!
# Topological order

Lists the nodes below some roots so that each node comes after its fanins.
The nodes on the way down from the root form the current path; meeting one of
them again closes a cycle.
-/

namespace AndInverter

/-- The nodes that have been listed so far. -/
structure Listing where
  /-- The listed nodes, the latest one first. -/
  latest : List Nat
  done : Std.TreeSet Nat

namespace Listing

variable {Store : Type} [Network Store]

def empty : Listing :=
  { latest := [], done := ∅ }

def add (listing : Listing) (id : Nat) : Listing :=
  { latest := id :: listing.latest
    done := listing.done.insert id }

/-- Lists a node after everything below it.  `path` holds the nodes on the
way down, and `depth` bounds how many more may join it. -/
def visit (network : Store) :
    (depth : Nat) → (path : List Nat) → Listing → Nat → Except Failure Listing
  | 0, _, _, _ => .error .exhausted
  | depth + 1, path, listing, id =>
    if Network.size network ≤ id then
      .error .assertion
    else if listing.done.contains id then
      .ok listing
    else if path.contains id then
      .error (.fault (.cycle id))
    else
      let children := Network.children network id
      if children.any (Network.size network ≤ ·) then
        .error .assertion
      else do
        let listing ← children.reverse.foldlM (visit network depth (id :: path)) listing
        return listing.add id

end Listing

/-- The nodes below the roots, fanins first.  A path has no repeated node, so
it is never longer than the table. -/
def topologicalSort {Store : Type} [Network Store] (network : Store)
    (roots : List Nat) : Except Failure (List Nat) := do
  let listing ← roots.foldlM
    (Listing.visit network (Network.size network + 1) []) Listing.empty
  return listing.latest.reverse

end AndInverter
