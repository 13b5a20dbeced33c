import AndInverter.Network
import Std.Data.TreeSet

/-!
# Depth-first search

A search holds the nodes it has yet to yield, the nodes it has ever come
across, and the nodes from which it may start again once it runs dry.  It
does not hold the network: each step is told which network to look at.
-/

namespace AndInverter

/-- A depth-first search, between two of its steps. -/
structure DepthFirst where
  /-- The nodes to yield, the next one first. -/
  stack : List Nat
  /-- The nodes that were ever put on the stack. -/
  seen : Std.TreeSet Nat
  /-- The nodes to start from when the stack is empty, in order. -/
  starts : List Nat

namespace DepthFirst

variable {Store : Type} [Network Store]

def fromNode (start : Nat) : DepthFirst :=
  { stack := [], seen := ∅, starts := [start] }

def fromOutputs (network : Store) : DepthFirst :=
  { stack := [], seen := ∅, starts := Network.roots network }

def push (search : DepthFirst) (id : Nat) : DepthFirst :=
  if search.seen.contains id then search
  else { search with
    stack := id :: search.stack
    seen := search.seen.insert id }

/-- Takes up the next start that is new, if the stack is empty. -/
def restart (search : DepthFirst) : DepthFirst :=
  match search.stack with
  | _ :: _ => search
  | [] =>
    match search.starts.dropWhile search.seen.contains with
    | [] => { search with starts := [] }
    | start :: starts => { search with starts := starts }.push start

/-- Yields a node and puts its new fanins on the stack, so that the last of
them comes next. -/
def next (network : Store) (search : DepthFirst) : Option (Nat × DepthFirst) :=
  let search := search.restart
  match search.stack with
  | [] => none
  | id :: stack =>
    some (id, (Network.children network id).foldl push { search with stack := stack })

def answers : List Store → DepthFirst → List (Option Nat) × DepthFirst
  | [], search => ([], search)
  | network :: networks, search =>
    match search.next network with
    | none =>
      let (rest, search) := search.answers networks
      (none :: rest, search)
    | some (id, search) =>
      let (rest, search) := search.answers networks
      (some id :: rest, search)

/-- Everything that a search yields in at most the given number of steps. -/
def collect (network : Store) : Nat → DepthFirst → List Nat
  | 0, _ => []
  | steps + 1, search =>
    match search.next network with
    | none => []
    | some (id, search) => id :: collect network steps search

/-- A number of steps after which a search of the network has ended: nothing
is yielded but what is on the stack, a start, or a fanin. -/
def stepBound (network : Store) (search : DepthFirst) : Nat :=
  search.stack.length + search.starts.length +
    ((List.range (Network.size network)).flatMap (Network.fanins network)).length

def toList (network : Store) (search : DepthFirst) : List Nat :=
  search.collect network (search.stepBound network)

end DepthFirst

end AndInverter
