import AndInverter.Aig.Construction

/-!
# Integrity of a store

Checks the laws of a well-formed store one after the other and reports the
first one that is broken: each node and its fanouts, the inputs, the outputs,
the structural table, and last that no node is reached from itself.
-/

namespace AndInverter

namespace Aig

/-- Reports a fault unless the condition holds. -/
def demand (condition : Bool) (fault : Fault) : Except Failure Unit :=
  if condition then .ok () else .error (.fault fault)

@[simp] theorem demand_eq_ok {condition : Bool} {fault : Fault} {done : Unit} :
    demand condition fault = .ok done ↔ condition = true := by
  cases condition <;> simp [demand]

def checkReads (aig : Aig) (edge : Edge) : Except Failure Unit :=
  demand (!aig.isDead edge.node) (.danglingEdge edge.node)

/-- A fanin of a gate is in the store and knows the gate. -/
def checkFanin (aig : Aig) (gate : Nat) (edge : Edge) : Except Failure Unit := do
  aig.checkReads edge
  demand ((aig.fanouts edge.node).contains gate) (.unregisteredFanout gate edge.node)

/-- A gate has normal fanins, is found through them, and is known to both. -/
def checkGate (aig : Aig) (gate : Nat) (fanins : Fanins) : Except Failure Unit := do
  demand (gate != 0) .reservedId
  demand fanins.isNormal (.abnormalFanins gate fanins)
  demand (aig.table[fanins]? == some gate) (.unhashedGate gate)
  aig.checkFanin gate fanins.first
  aig.checkFanin gate fanins.second

/-- Each fanout of a node reads it and is listed once. -/
def checkFanouts (aig : Aig) (id : Nat) : (earlier later : List Nat) → Except Failure Unit
  | _, [] => .ok ()
  | earlier, fanout :: later => do
    demand (!earlier.contains fanout) (.repeatedFanout fanout id)
    demand ((aig.fanins fanout).any (·.node == id)) (.strayFanout fanout id)
    aig.checkFanouts id (fanout :: earlier) later

/-- A stored node has its own position as identifier, and its fanins and
fanouts are in order. -/
def checkNode (aig : Aig) (position : Nat) (node : Node) : Except Failure Unit := do
  demand (node.id == position) (.misplacedNode position node.id)
  match node with
  | .constant => pure ()
  | .input id => demand (id != 0) .reservedId
  | .gate id fanins => aig.checkGate id fanins
  aig.checkFanouts position [] (aig.fanouts position)

def checkSlot (aig : Aig) (position : Nat) : Except Failure Unit :=
  match aig.node? position with
  | none => .ok ()
  | some node => aig.checkNode position node

def checkInput (aig : Aig) (id : Nat) : Except Failure Unit :=
  demand ((aig.node? id).any Node.isInput) (.notAnInput id)

def refsAgree (aig : Aig) : Bool :=
  (List.range aig.size).all fun id =>
    aig.outputRefs id == aig.outputs.countP (·.node == id)

def checkEntry (aig : Aig) (entry : Fanins × Nat) : Except Failure Unit :=
  demand (aig.gateFanins? entry.2 == some entry.1) (.staleEntry entry.1 entry.2)

def checkIntegrity (aig : Aig) : Except Failure Unit := do
  (List.range aig.size).forM aig.checkSlot
  aig.inputs.toList.forM aig.checkInput
  aig.outputs.toList.forM aig.checkReads
  demand aig.refsAgree .staleReferences
  aig.table.toList.forM aig.checkEntry
  let _ ← topologicalSort aig aig.liveNodes

end Aig

end AndInverter
