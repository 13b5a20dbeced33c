import AndInverter.Node

/-!
# Faults of a store

One constructor for each law of a well-formed store that can be found
broken, with the first place where it is.
-/

namespace AndInverter

inductive Fault where
  /-- The node stored at `position` carries another identifier. -/
  | misplacedNode (position id : Nat)
  /-- An input or a gate carries the identifier of the constant. -/
  | reservedId
  /-- The fanins of a gate are out of order or make it trivial. -/
  | abnormalFanins (gate : Nat) (fanins : Fanins)
  /-- The fanins of a gate do not lead back to it in the structural table. -/
  | unhashedGate (gate : Nat)
  /-- An edge reads a node that is not in the store. -/
  | danglingEdge (node : Nat)
  /-- A gate is missing among the fanouts of a node that it reads. -/
  | unregisteredFanout (gate node : Nat)
  | repeatedFanout (fanout node : Nat)
  /-- A listed fanout does not read the node. -/
  | strayFanout (fanout node : Nat)
  | notAnInput (id : Nat)
  /-- The number of outputs on some node is not the recorded one. -/
  | staleReferences
  /-- An entry of the structural table does not describe its gate. -/
  | staleEntry (fanins : Fanins) (gate : Nat)
  | unregisteredInput (id : Nat)
  | cycle (node : Nat)
  deriving DecidableEq

namespace Fault

def message : Fault → String
  | .misplacedNode position id => s!"incoherent node id: {position} in arena vs {id} in node"
  | .reservedId => "id=0 is for node False only"
  | .abnormalFanins gate fanins =>
      s!"gate {gate} has unnormalized or trivial fanins ({fanins.first.text}, {fanins.second.text})"
  | .unhashedGate gate => s!"gate {gate} is missing from the strash table"
  | .danglingEdge node => s!"edge pointing at node {node} which is not in the AIG anymore"
  | .unregisteredFanout gate node => s!"gate {gate} is not registered as a fanout of {node}"
  | .repeatedFanout fanout node => s!"fanout {fanout} registered twice on node {node}"
  | .strayFanout fanout node =>
      s!"fanout {fanout} of node {node} does not use it (or is no longer in the AIG)"
  | .notAnInput id => s!"input {id} is not an input node"
  | .staleReferences => "output reference counters are out of date"
  | .staleEntry fanins gate =>
      s!"strash entry ({fanins.first.text}, {fanins.second.text}) -> {gate} is stale"
  | .unregisteredInput id => s!"input {id} is not registered"
  | .cycle node => s!"found a cycle through node {node}"

end Fault

end AndInverter
