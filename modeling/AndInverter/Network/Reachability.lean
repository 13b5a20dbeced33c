import AndInverter.Network
import Mathlib.Logic.Relation

/-!
# Reachability

The relations on nodes that a network defines: which node reads which, what
lies below a node, and paths of a given length.  A network is acyclic if no
node lies strictly below itself.
-/

namespace AndInverter

namespace Network

variable {Store : Type} [Network Store]

/-- The second node is a fanin of the first. -/
def Reads (network : Store) (source target : Nat) : Prop :=
  target ∈ children network source

/-- The second node is the first one or lies below it. -/
def Reaches (network : Store) : Nat → Nat → Prop :=
  Relation.ReflTransGen (Reads network)

/-- A node lies below itself. -/
def OnCycle (network : Store) (id : Nat) : Prop :=
  Relation.TransGen (Reads network) id id

def Acyclic (network : Store) : Prop :=
  ∀ id, ¬ OnCycle network id

def Closed (network : Store) : Prop :=
  ∀ id child, Reads network id child → child < size network

/-- Fanins, gates and outputs name nodes of the table. -/
structure Bounded (network : Store) : Prop where
  closed : Closed network
  gates : ∀ gate ∈ gates network, gate < size network
  roots : ∀ root ∈ roots network, root < size network

def ReachedFrom (network : Store) (starts : List Nat) (id : Nat) : Prop :=
  ∃ start ∈ starts, Reaches network start id

/-- Walks from a node to one below it, by their length. -/
inductive Walk (network : Store) : Nat → Nat → Nat → Prop
  | here (id : Nat) : Walk network 0 id id
  | step {length source middle target : Nat}
      (reads : Reads network source middle)
      (rest : Walk network length middle target) :
      Walk network (length + 1) source target

/-- A level function in agreement with the fanins: 0 without fanins, else one
more than the largest level below. -/
structure LevelsAgree (network : Store) (level : Nat → Nat) : Prop where
  leaf : ∀ id, children network id = [] → level id = 0
  above : ∀ id child, Reads network id child → level child + 1 ≤ level id
  attained : ∀ id, children network id ≠ [] →
    ∃ child, Reads network id child ∧ level id = level child + 1

theorem mem_gates_of_reads {network : Store} {source target : Nat}
    (reads : Reads network source target) : source ∈ gates network := by
  apply mem_gates_of_fanins network source
  intro none
  rw [Reads, children, none] at reads
  cases reads

end Network

end AndInverter
