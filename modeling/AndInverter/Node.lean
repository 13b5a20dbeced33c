import AndInverter.Edge

/-!
# Nodes

A node of the network is the constant, an input or a gate.  A gate is the
conjunction of its two fanins.  The fanins of a new gate are put in order, so
that a pair of signals is stored in one way only.
-/

namespace AndInverter

/-- The two fanins of a gate, as they are stored. -/
structure Fanins where
  first : Edge
  second : Edge
  deriving DecidableEq

namespace Fanins

def ordered (left right : Edge) : Fanins :=
  if right < left then { first := right, second := left }
  else { first := left, second := right }

def toList (fanins : Fanins) : List Edge :=
  [fanins.first, fanins.second]

/-- The signal that the conjunction of an ordered pair reduces to without a
gate.  The constant has the smallest literals, so it comes first. -/
def trivial? (fanins : Fanins) : Option Edge :=
  if fanins.first.isComplementOf fanins.second || fanins.first.isFalse then
    some (.constant false)
  else if fanins.first = fanins.second || fanins.first.isTrue then
    some fanins.second
  else
    none

/-- Whether a pair is in order, on two nodes other than the constant. -/
def isNormal (fanins : Fanins) : Bool :=
  decide (fanins.first < fanins.second) &&
    fanins.first.node != fanins.second.node && fanins.first.node != 0

def value (valuation : Nat → Bool) (fanins : Fanins) : Bool :=
  fanins.first.value valuation && fanins.second.value valuation

/-- Pairs are compared by the literal of the first fanin, then of the second. -/
def compare : Fanins → Fanins → Ordering :=
  compareLex (compareOn (·.first.literal)) (compareOn (·.second.literal))

instance : Std.TransCmp compare :=
  inferInstanceAs (Std.TransCmp (compareLex _ _))

instance : Std.LawfulEqCmp compare where
  eq_of_compare {left right} equality := by
    obtain ⟨first, second⟩ := left
    obtain ⟨first', second'⟩ := right
    simp only [compare, compareLex_eq_eq, compareOn, Nat.compare_eq_eq,
      Edge.literal_inj] at equality
    simp [equality]

end Fanins

/-- A node of the network.  Inputs and gates know their own identifier. -/
inductive Node where
  | constant
  | input (id : Nat)
  | gate (id : Nat) (fanins : Fanins)
  deriving DecidableEq

namespace Node

def id : Node → Nat
  | .constant => 0
  | .input id => id
  | .gate id _ => id

def gateFanins? : Node → Option Fanins
  | .gate _ fanins => some fanins
  | _ => none

def fanins : Node → List Edge
  | .gate _ fanins => fanins.toList
  | _ => []

def isConstant : Node → Bool
  | .constant => true
  | _ => false

def isInput : Node → Bool
  | .input _ => true
  | _ => false

def isGate : Node → Bool
  | .gate _ _ => true
  | _ => false

end Node

end AndInverter
