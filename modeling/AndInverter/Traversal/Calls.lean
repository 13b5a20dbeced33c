import AndInverter.Network.Reachability
import AndInverter.Traversal.DepthFirst

/-!
# Calls of a search

What a search answers to one call after the other, on one network or on a
network of its own for each call, and in which order it may list the nodes
below its starts.
-/

namespace AndInverter

namespace Network

variable {Store : Type} [Network Store]

/-- Reachability by paths that do not enter a blocked node. -/
def ReachesAround (network : Store) (blocked : Nat → Prop) : Nat → Nat → Prop :=
  Relation.ReflTransGen fun source target => Reads network source target ∧ ¬ blocked target

end Network

namespace DepthFirst

/-- Answers to calls one after the other.  Each call may be told to look at
another network, of any kind. -/
inductive Calls : DepthFirst → List (Option Nat) → Prop
  | nil (search : DepthFirst) : Calls search []
  | yielded {Store : Type} [Network Store] {network : Store} {search later : DepthFirst}
      {id : Nat} {answers : List (Option Nat)} (call : search.next network = some (id, later))
      (rest : Calls later answers) : Calls search (some id :: answers)
  | ended {Store : Type} [Network Store] {network : Store} {search : DepthFirst}
      {answers : List (Option Nat)} (call : search.next network = none)
      (rest : Calls search answers) : Calls search (none :: answers)

/-- Answers that name different nodes, and nothing after the last one. -/
def NamesOnce (answers : List (Option Nat)) : Prop :=
  ∃ (ids : List Nat) (silent : Nat),
    answers = ids.map some ++ List.replicate silent none ∧ ids.Nodup

variable {Store : Type} [Network Store]

/-- Calls on one network yield the listed nodes in order, and nothing from
then on. -/
def Yields (network : Store) (search : DepthFirst) (ids : List Nat) : Prop :=
  ∀ calls, (search.answers (List.replicate calls network)).1 =
    (ids.take calls).map some ++ List.replicate (calls - ids.length) none

/-- The nodes below some starts, each listed once.  What lies below the first
starts comes first, whatever their number. -/
structure Explores (network : Store) (starts ids : List Nat) : Prop where
  nodup : ids.Nodup
  mem_iff : ∀ id, id ∈ ids ↔ Network.ReachedFrom network starts id
  inOrder : ∀ count, ∃ earlier others, ids = earlier ++ others ∧
    ∀ id, id ∈ earlier ↔ Network.ReachedFrom network (starts.take count) id

/-- A node is listed, or a listed node reads it. -/
def Met (network : Store) (listed : List Nat) (id : Nat) : Prop :=
  id ∈ listed ∨ ∃ reader ∈ listed, Network.Reads network reader id

/-- A list begins with all nodes but the given one that paths from it around
the blocked nodes lead to, and goes on with others. -/
def BeginsBelow (network : Store) (blocked : Nat → Prop) (id : Nat) (rest : List Nat) : Prop :=
  ∃ block others, rest = block ++ others ∧
    ∀ other, other ∈ block ↔ other ≠ id ∧ Network.ReachesAround network blocked id other

/-- Each node is followed at once by all that lies below it around the nodes
listed before. -/
def Preorder (network : Store) (ids : List Nat) : Prop :=
  ∀ earlier id rest, ids = earlier ++ id :: rest →
    BeginsBelow network (· ∈ earlier) id rest

/-- Each node is followed at once by all that lies below it around the nodes
listed before and the nodes that these read. -/
def Blockwise (network : Store) (ids : List Nat) : Prop :=
  ∀ earlier id rest, ids = earlier ++ id :: rest →
    BeginsBelow network (Met network earlier) id rest

end DepthFirst

end AndInverter
