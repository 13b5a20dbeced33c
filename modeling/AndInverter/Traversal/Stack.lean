import AndInverter.Traversal.Topological
import Mathlib.Logic.Function.Basic

/-!
# Sorting with one stack

The sort as a machine that holds a single stack: nodes to look at and, below
everything that a node has pushed, the node itself, to be listed when its turn
comes again.  A table of marks tells new nodes from those in progress and those
that are done.
-/

namespace AndInverter

inductive Task where
  | look (id : Nat)
  /-- All that the node reads is listed, and now it is the node's turn. -/
  | list (id : Nat)

/-- How far a sort has come with a node. -/
inductive Mark where
  | new
  | inProgress
  | done
  deriving DecidableEq

/-- A sort over one stack, between two of its steps. -/
structure StackSort where
  /-- The tasks, the next one first. -/
  stack : List Task
  marks : Nat → Mark
  /-- The listed nodes, the latest one first. -/
  latest : List Nat

namespace StackSort

def start (roots : List Nat) : StackSort :=
  { stack := roots.map .look, marks := fun _ => .new, latest := [] }

variable {Store : Type} [Network Store]

/-- Does a task that was taken off the stack.  A new node goes back onto it,
with its fanins above it and the last of them on top; fanins that are done are
left out. -/
def perform (network : Store) (sort : StackSort) : Task → Except Failure StackSort
  | .list id =>
    .ok { sort with
      marks := Function.update sort.marks id .done
      latest := id :: sort.latest }
  | .look id =>
    if Network.size network ≤ id then
      .error .assertion
    else
      match sort.marks id with
      | .done => .ok sort
      | .inProgress => .error (.fault (.cycle id))
      | .new =>
        if (Network.children network id).any (Network.size network ≤ ·) then
          .error .assertion
        else
          let marks := Function.update sort.marks id .inProgress
          let pushed := (Network.children network id).filter (marks · ≠ .done)
          .ok { sort with
            stack := pushed.reverse.map .look ++ .list id :: sort.stack
            marks := marks }

/-- The steps of a sort until its stack is empty or a task fails. -/
inductive Runs (network : Store) : StackSort → Except Failure (List Nat) → Prop
  | ended {sort : StackSort} (empty : sort.stack = []) :
      Runs network sort (.ok sort.latest.reverse)
  | step {sort next : StackSort} {task : Task} {rest : List Task}
      {outcome : Except Failure (List Nat)} (top : sort.stack = task :: rest)
      (performed : perform network { sort with stack := rest } task = .ok next)
      (runs : Runs network next outcome) : Runs network sort outcome
  | failed {sort : StackSort} {task : Task} {rest : List Task} {failure : Failure}
      (top : sort.stack = task :: rest)
      (performed : perform network { sort with stack := rest } task = .error failure) :
      Runs network sort (.error failure)

end StackSort

end AndInverter
