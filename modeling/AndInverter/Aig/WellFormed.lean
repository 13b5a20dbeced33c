import AndInverter.Aig.Semantics

/-!
# Laws of a store

`Bookkeeping` collects what holds after any operations: what the store records
of references and of the structural table says nothing wrong.  `Hashed` adds
that the table misses no gate.  `WellFormed` is what an integrity check looks
for: it asks nothing of the fanouts of a reclaimed node.
-/

namespace AndInverter

namespace Aig

def GateReads (aig : Aig) (gate id : Nat) : Prop :=
  ∃ fanins, aig.gateFanins? gate = some fanins ∧
    (fanins.first.node = id ∨ fanins.second.node = id)

/-- The fanouts of a node are the gates that read it, each listed once. -/
structure FanoutsAgree (aig : Aig) (id : Nat) : Prop where
  mem_iff : ∀ gate, gate ∈ aig.fanouts id ↔ aig.GateReads gate id
  nodup : (aig.fanouts id).Nodup

/-- Gates and outputs refer to nodes of the store, outputs are counted, and
the structural table tells the truth. -/
structure References (aig : Aig) : Prop where
  /-- The fanins of a gate are in order, on two nodes other than the
  constant. -/
  normal : ∀ gate fanins, aig.gateFanins? gate = some fanins →
    fanins.first < fanins.second ∧ fanins.first.node ≠ fanins.second.node ∧
      fanins.first.node ≠ 0
  fanins_live : ∀ gate id, aig.GateReads gate id → aig.isDead id = false
  outputs_live : ∀ output ∈ aig.outputs, aig.isDead output.node = false
  refs : ∀ id, aig.outputRefs id = aig.outputs.countP (·.node == id)
  /-- An entry of the table leads to a gate with these fanins. -/
  table_sound : ∀ (fanins : Fanins) (gate : Nat), aig.table[fanins]? = some gate →
    aig.gateFanins? gate = some fanins

/-- All records of the store agree with its nodes. -/
structure Bookkeeping (aig : Aig) : Prop extends References aig where
  fanouts : ∀ id, aig.FanoutsAgree id

/-- The table leads from the fanins of each gate back to it. -/
def Hashed (aig : Aig) : Prop :=
  ∀ gate fanins, aig.gateFanins? gate = some fanins → aig.table[fanins]? = some gate

/-- Nodes carry their own position, and only the constant has position 0. -/
structure Placed (aig : Aig) : Prop where
  position : ∀ id node, aig.node? id = some node → node.id = id
  reserved : ∀ node, aig.node? 0 = some node → node = .constant

def InputsStored (aig : Aig) : Prop :=
  ∀ id ∈ aig.inputs, aig.node? id = some (.input id)

structure WellFormed (aig : Aig) : Prop extends References aig, Placed aig where
  inputs : aig.InputsStored
  fanouts : ∀ id, aig.isDead id = false → aig.FanoutsAgree id
  hashed : aig.Hashed
  acyclic : aig.Acyclic

theorem Hashed.injective {aig : Aig} (hashed : aig.Hashed) {first second : Nat}
    {fanins : Fanins} (left : aig.gateFanins? first = some fanins)
    (right : aig.gateFanins? second = some fanins) : first = second := by
  have found := hashed first fanins left
  rw [hashed second fanins right] at found
  exact (Option.some.inj found).symm

end Aig

end AndInverter
