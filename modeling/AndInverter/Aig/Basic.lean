import AndInverter.Node
import Std.Data.TreeMap

/-!
# And-inverter graphs

The store keeps its nodes in an arena of slots.  A slot also records which
gates read its node and how many outputs do.  A node that leaves the store
empties its slot for good: identifiers are never used again.  The structural
table leads from the fanins of a gate to the gate, so that no gate is built
twice.
-/

namespace AndInverter

/-- One place of the arena: a node, or nothing once it was reclaimed, with
what refers to it. -/
structure Slot where
  node : Option Node
  /-- The gates that read the node, in the order in which they came to. -/
  fanouts : List Nat
  outputRefs : Nat

def Slot.vacant : Slot :=
  { node := none, fanouts := [], outputRefs := 0 }

def Slot.fresh (node : Node) : Slot :=
  { node := some node, fanouts := [], outputRefs := 0 }

structure Aig where
  slots : Array Slot
  /-- The structural table: the gate that has the given fanins. -/
  table : Std.TreeMap Fanins Nat Fanins.compare
  inputs : Array Nat
  outputs : Array Edge

namespace Aig

/-- The graph that holds nothing but the constant. -/
def empty : Aig :=
  { slots := #[Slot.fresh .constant]
    table := ∅
    inputs := #[]
    outputs := #[] }

def size (aig : Aig) : Nat :=
  aig.slots.size

/-- The slot of an identifier, vacant beyond the arena. -/
def slot (aig : Aig) (id : Nat) : Slot :=
  aig.slots.getD id Slot.vacant

/-- The node of an identifier, if it exists and was not reclaimed. -/
def node? (aig : Aig) (id : Nat) : Option Node :=
  (aig.slot id).node

def fanouts (aig : Aig) (id : Nat) : List Nat :=
  (aig.slot id).fanouts

def outputRefs (aig : Aig) (id : Nat) : Nat :=
  (aig.slot id).outputRefs

def counters (aig : Aig) : Array Nat :=
  aig.slots.map (·.outputRefs)

def fanoutSize (aig : Aig) (id : Nat) : Nat :=
  (aig.fanouts id).length + aig.outputRefs id

def isDead (aig : Aig) (id : Nat) : Bool :=
  (aig.node? id).isNone

def gateFanins? (aig : Aig) (id : Nat) : Option Fanins :=
  (aig.node? id).bind Node.gateFanins?

def isGate (aig : Aig) (id : Nat) : Bool :=
  (aig.gateFanins? id).isSome

def fanins (aig : Aig) (id : Nat) : List Edge :=
  ((aig.gateFanins? id).map Fanins.toList).getD []

def gates (aig : Aig) : List Nat :=
  (List.range aig.size).filter aig.isGate

def liveNodes (aig : Aig) : List Nat :=
  (List.range aig.size).filter fun id => !aig.isDead id

def modifySlot (aig : Aig) (id : Nat) (change : Slot → Slot) : Aig :=
  { aig with slots := aig.slots.modify id change }

def setNode (aig : Aig) (id : Nat) (node : Option Node) : Aig :=
  aig.modifySlot id fun slot => { slot with node := node }

/-- Registers a gate as the latest one that reads a node. -/
def addFanout (aig : Aig) (id gate : Nat) : Aig :=
  aig.modifySlot id fun slot => { slot with fanouts := slot.fanouts ++ [gate] }

def dropFanout (aig : Aig) (id gate : Nat) : Aig :=
  aig.modifySlot id fun slot => { slot with fanouts := slot.fanouts.filter (· ≠ gate) }

/-- Records other uses of a node by outputs. -/
def adjustRefs (aig : Aig) (id : Nat) (adjust : Nat → Nat) : Aig :=
  aig.modifySlot id fun slot => { slot with outputRefs := adjust slot.outputRefs }

/-- Lets the structural table lead from a pair of fanins to a gate. -/
def hash (aig : Aig) (fanins : Fanins) (gate : Nat) : Aig :=
  { aig with table := aig.table.insert fanins gate }

/-- Strikes a pair of fanins from the structural table if it leads to the
given gate. -/
def unhash (aig : Aig) (fanins : Fanins) (gate : Nat) : Aig :=
  if aig.table[fanins]? = some gate then
    { aig with table := aig.table.erase fanins }
  else
    aig

def allocate (aig : Aig) (node : Node) : Aig :=
  { aig with slots := aig.slots.push (Slot.fresh node) }

def addInput (aig : Aig) : Edge × Aig :=
  let id := aig.size
  let aig := aig.allocate (.input id)
  (.plain id, { aig with inputs := aig.inputs.push id })

def addInputs (aig : Aig) : (count : Nat) → List Edge × Aig
  | 0 => ([], aig)
  | count + 1 =>
    let (edge, aig) := aig.addInput
    let (edges, aig) := aig.addInputs count
    (edge :: edges, aig)

def addGate (aig : Aig) (fanins : Fanins) : Edge × Aig :=
  let id := aig.size
  let aig := (aig.allocate (.gate id fanins)).hash fanins id
  (.plain id, (aig.addFanout fanins.first.node id).addFanout fanins.second.node id)

/-- The conjunction of two edges: what it reduces to, the gate that computes
it already, or a new gate. -/
def conjoin (aig : Aig) (left right : Edge) : Edge × Aig :=
  let fanins := Fanins.ordered left right
  match fanins.trivial? with
  | some edge => (edge, aig)
  | none =>
    match aig.table[fanins]? with
    | some gate => (.plain gate, aig)
    | none => aig.addGate fanins

end Aig

end AndInverter
