import AndInverter.Aig.Construction
import AndInverter.Network.Reachability

/-!
# What a graph computes

Two readings of a graph.  A valuation of the nodes satisfies it if the
constant is false and every gate is the conjunction of its fanins; this makes
sense with cycles too.  Evaluation from an assignment of the inputs goes down
to the inputs, and gives a node at most one value if inputs have one position
each.
-/

namespace AndInverter

namespace Aig

/-- A valuation of the nodes that respects the constant and every gate. -/
structure Satisfies (aig : Aig) (valuation : Nat → Bool) : Prop where
  constant : valuation 0 = false
  gate : ∀ id fanins, aig.gateFanins? id = some fanins →
    valuation id = fanins.value valuation

/-- Evaluation of a node under an assignment of the inputs, by position. -/
inductive Evaluates (aig : Aig) (assignment : Nat → Bool) : Nat → Bool → Prop
  | constant {id : Nat} (stored : aig.node? id = some .constant) :
      Evaluates aig assignment id false
  | input {id name index : Nat} (stored : aig.node? id = some (.input name))
      (registered : aig.inputs[index]? = some id) :
      Evaluates aig assignment id (assignment index)
  | gate {id : Nat} {fanins : Fanins} {first second : Bool}
      (stored : aig.gateFanins? id = some fanins)
      (left : Evaluates aig assignment fanins.first.node first)
      (right : Evaluates aig assignment fanins.second.node second) :
      Evaluates aig assignment id
        ((first ^^ fanins.first.complement) && (second ^^ fanins.second.complement))

def EdgeEvaluates (aig : Aig) (assignment : Nat → Bool) (edge : Edge) (value : Bool) : Prop :=
  aig.Evaluates assignment edge.node (value ^^ edge.complement)

/-- Two graphs have as many inputs and outputs, and under every assignment
the outputs have the same values by position. -/
structure SameFunctions (left right : Aig) : Prop where
  inputs : left.inputs.size = right.inputs.size
  outputs : left.outputs.size = right.outputs.size
  values : ∀ (assignment : Nat → Bool) (index : Nat) (output output' : Edge),
    left.outputs[index]? = some output → right.outputs[index]? = some output' →
    ∀ value, left.EdgeEvaluates assignment output value ↔ right.EdgeEvaluates assignment output' value

/-- No node of the graph lies below itself. -/
def Acyclic (aig : Aig) : Prop :=
  Network.Acyclic aig

theorem reads_iff {aig : Aig} {source target : Nat} :
    Network.Reads aig source target ↔
      ∃ fanins, aig.gateFanins? source = some fanins ∧
        (fanins.first.node = target ∨ fanins.second.node = target) := by
  show target ∈ (aig.fanins source).map (·.node) ↔ _
  cases gate : aig.gateFanins? source with
  | none => simp [fanins, gate]
  | some pair => simp [fanins, gate, Fanins.toList, eq_comm]

end Aig

end AndInverter
