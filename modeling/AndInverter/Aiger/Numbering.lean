import AndInverter.Aig.Construction

/-!
# Numbering of a graph

A file numbers the inputs first, in the order of their creation, and then the
gates below the outputs, fanins first.  Nothing else is written.
-/

namespace AndInverter

namespace Aiger

/-- The variables of the nodes of a graph. -/
structure Numbering where
  /-- The number of each node, 0 for the constant and for what is not
  written. -/
  numbers : Array Nat
  /-- The gates that are written, in order. -/
  gates : List Nat

namespace Numbering

def assign (numbers : Array Nat) : (next : Nat) → List Nat → Array Nat
  | _, [] => numbers
  | next, id :: ids => assign (numbers.setIfInBounds id next) (next + 1) ids

def ofAig (aig : Aig) : Except Failure Numbering := do
  let order ← aig.sorted
  let gates := order.filter aig.isGate
  let numbers := assign (Array.replicate aig.size 0) 1 aig.inputs.toList
  return {
    numbers := assign numbers (aig.inputs.size + 1) gates
    gates := gates }

def number (numbering : Numbering) (id : Nat) : Nat :=
  numbering.numbers.getD id 0

def literal (numbering : Numbering) (edge : Edge) : Nat :=
  2 * numbering.number edge.node + edge.complement.toNat

/-- The literals of a gate and of its fanins, the larger fanin first. -/
def gateLiterals (numbering : Numbering) (aig : Aig) (gate : Nat) : Option (Nat × Nat × Nat) :=
  (aig.gateFanins? gate).map fun fanins =>
    let first := numbering.literal fanins.first
    let second := numbering.literal fanins.second
    (2 * numbering.number gate, max first second, min first second)

def gateLines (numbering : Numbering) (aig : Aig) : List (Nat × Nat × Nat) :=
  numbering.gates.filterMap (numbering.gateLiterals aig)

def headerLine (numbering : Numbering) (aig : Aig) (format : String) : String :=
  let inputs := aig.inputs.size
  let outputs := aig.outputs.size
  let gates := numbering.gates.length
  s!"{format} {inputs + gates} {inputs} 0 {outputs} {gates}\n"

def literalLine (literal : Nat) : String :=
  s!"{literal}\n"

def outputLines (numbering : Numbering) (aig : Aig) : String :=
  String.join (aig.outputs.toList.map fun output => literalLine (numbering.literal output))

end Numbering

end Aiger

end AndInverter
