import AndInverter.Proofs.Aig.Checking
import AndInverter.Proofs.Aig.Hashing
import AndInverter.Proofs.Rewriting.Preservation

/-!
# Stores that were only built

Inputs, conjunctions and outputs added to the empty graph keep all laws of a
store at once: the books, the ports, the structural table and the absence of
cycles.  A conjunction has the value of its operands in any later store.
-/

namespace AndInverter

namespace Aig

/-- The laws that building keeps. -/
structure Intact (aig : Aig) : Prop where
  bookkeeping : aig.Bookkeeping
  ports : aig.Ports
  hashed : aig.Hashed
  acyclic : aig.Acyclic

theorem Intact.wellFormed {aig : Aig} (intact : aig.Intact) : aig.WellFormed :=
  { toReferences := intact.bookkeeping.toReferences
    toPlaced := intact.ports.toPlaced
    inputs := intact.ports.inputs
    fanouts := fun id _ => intact.bookkeeping.fanouts id
    hashed := intact.hashed
    acyclic := intact.acyclic }

/-- A store that passes its check has these laws, whatever operations led to
it. -/
theorem Reachable.intact {aig : Aig} (reachable : aig.Reachable)
    (checked : aig.checkIntegrity = .ok ()) : aig.Intact :=
  { bookkeeping := reachable.bookkeeping
    ports := reachable.ports
    hashed := hashed_of_checkIntegrity checked
    acyclic := acyclic_of_checkIntegrity checked }

theorem hashed_iff_hashedExcept {aig : Aig} :
    aig.Hashed ↔ aig.HashedExcept fun _ => False := by
  constructor
  · intro hashed gate fanins _ stored
    exact hashed gate fanins stored
  · intro hashed gate fanins stored
    exact hashed gate fanins not_false stored

/-- Elementary changes that redirect nothing keep the laws, as long as they
close no cycle. -/
theorem Intact.edits {aig next : Aig} (intact : aig.Intact)
    (edits : Edits (fun _ => False) aig next) (acyclic : next.Acyclic) : next.Intact :=
  { bookkeeping := edits.bookkeeping intact.bookkeeping
    ports := edits.ports intact.ports
    hashed := hashed_iff_hashedExcept.mpr
      (edits.hashedExcept (hashed_iff_hashedExcept.mp intact.hashed))
    acyclic := acyclic }

/-- Cycles depend on the fanins of the gates only. -/
theorem Acyclic.congr {aig next : Aig} (acyclic : aig.Acyclic)
    (same : ∀ id, next.gateFanins? id = aig.gateFanins? id) : next.Acyclic := by
  intro id cycle
  refine acyclic id (Relation.TransGen.mono (fun source target reads => ?_) id id cycle)
  obtain ⟨fanins, stored, sides⟩ := reads_iff.mp reads
  exact reads_iff.mpr ⟨fanins, same source ▸ stored, sides⟩

theorem intact_empty : Aig.empty.Intact := by
  refine { bookkeeping := bookkeeping_empty, ports := ports_empty
           hashed := hashed_iff_hashedExcept.mpr hashedExcept_empty, acyclic := ?_ }
  intro id cycle
  obtain ⟨child, reads, _⟩ := Relation.TransGen.head'_iff.mp cycle
  obtain ⟨fanins, stored, _⟩ := reads_iff.mp reads
  have inside : id < 1 := lt_size_of_gateFanins? stored
  obtain rfl : id = 0 := by omega
  cases stored

theorem Intact.addInput {aig : Aig} (intact : aig.Intact) : aig.addInput.2.Intact :=
  intact.edits (.single (.addInput aig)) (intact.acyclic.congr (gateFanins?_addInput aig))

theorem Intact.appendOutput {aig : Aig} (intact : aig.Intact) {edge : Edge}
    (live : aig.isDead edge.node = false) : (aig.appendOutput edge).Intact :=
  intact.edits (.single (.addOutput live))
    (intact.acyclic.congr (gateFanins?_appendOutput aig edge))

theorem Intact.appendOutputs {aig : Aig} (intact : aig.Intact) {edges : List Edge}
    (live : ∀ edge ∈ edges, aig.isDead edge.node = false) :
    (edges.foldl Aig.appendOutput aig).Intact := by
  induction edges generalizing aig with
  | nil => exact intact
  | cons edge edges induction =>
      obtain ⟨first, others⟩ := List.forall_mem_cons.mp live
      refine induction (intact.appendOutput first) fun other member => ?_
      rw [isDead, node?_appendOutput]
      exact others other member

@[simp] theorem node?_appendOutputs (aig : Aig) (edges : List Edge) (id : Nat) :
    (edges.foldl Aig.appendOutput aig).node? id = aig.node? id := by
  induction edges generalizing aig with
  | nil => rfl
  | cons edge edges induction => rw [List.foldl_cons, induction, node?_appendOutput]

@[simp] theorem inputs_appendOutputs (aig : Aig) (edges : List Edge) :
    (edges.foldl Aig.appendOutput aig).inputs = aig.inputs := by
  induction edges generalizing aig with
  | nil => rfl
  | cons edge edges induction => exact induction (aig.appendOutput edge)

@[simp] theorem outputs_appendOutputs (aig : Aig) (edges : List Edge) :
    (edges.foldl Aig.appendOutput aig).outputs = aig.outputs ++ edges := by
  induction edges generalizing aig with
  | nil => simp
  | cons edge edges induction =>
      rw [List.foldl_cons, induction, outputs_appendOutput]
      simp

theorem createAnd_of_live {aig : Aig} {left right : Edge}
    (leftLive : aig.isDead left.node = false) (rightLive : aig.isDead right.node = false) :
    aig.createAnd left right = .ok (aig.conjoin left right) := by
  simp [createAnd, leftLive, rightLive]

theorem Intact.conjoin {aig : Aig} (intact : aig.Intact) {left right : Edge}
    (leftLive : aig.isDead left.node = false) (rightLive : aig.isDead right.node = false) :
    (aig.conjoin left right).2.Intact :=
  intact.edits (conjoin_edits leftLive rightLive)
    (acyclic_createAnd intact.bookkeeping.toReferences (createAnd_of_live leftLive rightLive)
      intact.acyclic)

theorem Intact.live_conjoin {aig : Aig} (intact : aig.Intact) {left right : Edge}
    (leftLive : aig.isDead left.node = false) (rightLive : aig.isDead right.node = false) :
    (aig.conjoin left right).2.isDead (aig.conjoin left right).1.node = false := by
  obtain ⟨valuation, satisfies, _⟩ := exists_valuation intact.bookkeeping.toReferences
    intact.ports intact.acyclic fun _ => false
  obtain ⟨_, _, _, live⟩ := conjoin_continues intact.bookkeeping.toReferences intact.ports
    satisfies leftLive rightLive
  exact live

theorem addInput_grows (aig : Aig) : aig.Grows aig.addInput.2 := by
  intro id node stored
  rw [node?_addInput, if_neg (Nat.ne_of_lt (lt_size_of_node? stored)), stored]

theorem conjoin_interface (aig : Aig) (left right : Edge) :
    (aig.conjoin left right).2.inputs = aig.inputs ∧
      (aig.conjoin left right).2.outputs = aig.outputs := by
  rcases aig.conjoin_cases left right with
    ⟨_, _, outcome⟩ | ⟨_, _, outcome⟩ | ⟨_, _, outcome⟩
  · rw [outcome]
    exact ⟨rfl, rfl⟩
  · rw [outcome]
    exact ⟨rfl, rfl⟩
  · rw [outcome]
    exact ⟨rfl, rfl⟩

theorem Satisfies.of_grows {aig next : Aig} (grows : aig.Grows next) {valuation : Nat → Bool}
    (satisfies : next.Satisfies valuation) : aig.Satisfies valuation := by
  exact ⟨satisfies.constant, fun id fanins stored =>
    satisfies.gate id fanins (grows.gateFanins? stored)⟩

/-- Wherever the store with the conjunction is satisfied, the conjunction has
the value of its operands. -/
theorem value_conjoin {aig : Aig} (references : aig.References) {left right : Edge}
    {valuation : Nat → Bool} (satisfies : (aig.conjoin left right).2.Satisfies valuation) :
    (aig.conjoin left right).1.value valuation =
      (left.value valuation && right.value valuation) := by
  rw [← Fanins.value_ordered]
  have plain : ∀ gate, (Edge.plain gate).value valuation = valuation gate := by
    simp [Edge.value, Edge.plain]
  rcases aig.conjoin_cases left right with
    ⟨edge, reduced, outcome⟩ | ⟨gate, found, outcome⟩ | ⟨_, _, outcome⟩
  · rw [outcome] at satisfies ⊢
    exact Fanins.value_of_trivial? satisfies.constant reduced
  · rw [outcome] at satisfies ⊢
    rw [plain]
    exact satisfies.gate gate _ (references.table_sound _ gate found)
  · rw [outcome] at satisfies ⊢
    refine (plain aig.size).trans (satisfies.gate aig.size _ ?_)
    rw [gateFanins?_addGate, if_pos rfl]

end Aig

end AndInverter
