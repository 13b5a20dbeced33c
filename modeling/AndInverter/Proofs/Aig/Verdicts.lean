import AndInverter.Aig.Counters
import AndInverter.Proofs.Aig.Checking
import AndInverter.Proofs.Aig.Integrity

/-!
# The verdict of an integrity check

The check accepts the well-formed stores and no others, wherever the output
counters are kept.  Whatever it does not accept, it refuses with a fault: no
index leaves a table, and the search for a cycle comes to its end.
-/

namespace AndInverter

namespace Aig

variable {aig : Aig} {recorded : Array Nat}

/-! ### Counting -/

/-- A table of counters after some outputs were counted. -/
def tally (outputs : List Edge) (counted : Array Nat) : Array Nat :=
  outputs.foldl (fun counted output => counted.modify output.node (· + 1)) counted

private theorem getElem?_tally (outputs : List Edge) (counted : Array Nat) (id : Nat) :
    (tally outputs counted)[id]? = counted[id]?.map (· + outputs.countP (·.node == id)) := by
  induction outputs generalizing counted with
  | nil => simp [tally]
  | cons output outputs induction =>
      have rest : tally (output :: outputs) counted =
          tally outputs (counted.modify output.node (· + 1)) := rfl
      rw [rest, induction, Array.getElem?_modify, List.countP_cons]
      by_cases same : output.node = id
      · cases counted[id]? <;> simp [same]
        omega
      · cases counted[id]? <;> simp [same]

/-- Counting the outputs fails where looking at them does, and never for want
of a counter. -/
theorem foldlM_countOutput (outputs : List Edge) {counted : Array Nat}
    (complete : counted.size = aig.size) :
    outputs.foldlM aig.countOutput counted =
      outputs.forM aig.checkReads >>= fun _ => .ok (tally outputs counted) := by
  induction outputs generalizing counted with
  | nil => rfl
  | cons output outputs induction =>
      have both : (output :: outputs).forM aig.checkReads =
          (aig.checkReads output >>= fun _ => outputs.forM aig.checkReads) := rfl
      rw [List.foldlM_cons, both]
      cases first : aig.checkReads output with
      | error failure => simp [countOutput, first, bind, Except.bind]
      | ok done =>
          have inside : output.node < counted.size :=
            complete ▸ lt_size_of_live (checkReads_eq_ok_iff.mp first)
          have counts : aig.countOutput counted output =
              .ok (counted.modify output.node (· + 1)) := by
            simp [countOutput, first, require, inside, bind, Except.bind, pure, Except.pure]
          rw [counts]
          exact induction (by rw [Array.size_modify, complete])

private theorem eq_tally_iff :
    tally aig.outputs.toList (Array.replicate aig.size 0) = recorded ↔
      ∀ id, recorded[id]? =
        if id < aig.size then some (aig.outputs.countP (·.node == id)) else none := by
  have expected : ∀ id, (tally aig.outputs.toList (Array.replicate aig.size 0))[id]? =
      if id < aig.size then some (aig.outputs.countP (·.node == id)) else none := by
    intro id
    rw [getElem?_tally, Array.getElem?_replicate]
    split <;> simp
  constructor
  · rintro rfl
    exact expected
  · intro counted
    exact Array.ext_getElem? fun id => by rw [expected, counted]

/-- The check looks at the outputs first and compares their number with the
counters afterwards. -/
theorem checkCounters_eq :
    aig.checkCounters recorded = (do
      (List.range aig.size).forM aig.checkSlot
      aig.inputs.toList.forM aig.checkInput
      aig.outputs.toList.forM aig.checkReads
      demand (tally aig.outputs.toList (Array.replicate aig.size 0) == recorded) .staleReferences
      aig.table.toList.forM aig.checkEntry
      let _ ← topologicalSort aig aig.liveNodes) := by
  rw [checkCounters, foldlM_countOutput _ (by simp)]
  simp only [bind_assoc]
  rfl

/-! ### Verdicts -/

theorem checkCounters_eq_ok_iff :
    aig.checkCounters recorded = .ok () ↔ aig.WellFormedWith recorded := by
  simp only [checkCounters_eq, bind_eq_ok, exists_const, forM_eq_ok_iff, checkSlots_eq_ok_iff,
    checkInput, demand_eq_ok, checkReads_eq_ok_iff, beq_iff_eq, eq_tally_iff,
    checkEntries_eq_ok_iff, Array.mem_toList_iff, pure_eq_ok, and_true, nodesInOrder_iff]
  constructor
  · rintro ⟨⟨placed, operands, hashed, fanouts⟩, inputs, outputs, counted, entries, sorted⟩
    refine { toPlaced := placed, operands := ?_, hashed := hashed, entries := entries
             fanouts := fanouts, inputs := (inputsStored_iff placed).mp inputs
             outputs := outputs, counted := counted
             acyclic := operands.exists_sorted_iff.mp sorted }
    intro gate fanins stored
    obtain ⟨normal, first, second⟩ := operands gate fanins stored
    obtain ⟨ascending, different, notConstant⟩ := Fanins.isNormal_iff.mp normal
    exact ⟨ascending, different, notConstant, Edge.node_ne_zero_of_lt ascending notConstant,
      first, second⟩
  · intro lawful
    have operands : aig.OperandsInOrder := by
      intro gate fanins stored
      obtain ⟨ascending, different, notConstant, _, live⟩ := lawful.operands gate fanins stored
      exact ⟨Fanins.isNormal_iff.mpr ⟨ascending, different, notConstant⟩, live⟩
    exact ⟨⟨lawful.toPlaced, operands, lawful.hashed, lawful.fanouts⟩,
      (inputsStored_iff lawful.toPlaced).mpr lawful.inputs, lawful.outputs, lawful.counted,
      lawful.entries, operands.exists_sorted_iff.mpr lawful.acyclic⟩

/-- The check fails with a fault only.  Before the search for a cycle starts,
the nodes were found in order, so the search stays within the store. -/
theorem fault_of_checkCounters :
    FailsOnly (fun failure => ∃ fault, failure = .fault fault) (aig.checkCounters recorded) := by
  have permits : ∀ fault : Fault, (∀ gate, fault ≠ .unhashedGate gate) →
      ∃ other, Failure.fault fault = .fault other := fun fault _ => ⟨fault, rfl⟩
  have slots : ∀ position,
      FailsOnly (fun failure => ∃ fault, failure = .fault fault) (aig.checkSlot position) :=
    failsOnly_checkSlot permits fun gate _ _ _ => ⟨.unhashedGate gate, rfl⟩
  rw [checkCounters_eq]
  refine .bind (.forM fun position _ => slots position) fun _ checked => ?_
  refine .bind (.forM fun id _ => failsOnly_checkInput permits id) fun _ _ => ?_
  refine .bind (.forM fun edge _ => failsOnly_checkReads permits edge) fun _ _ => ?_
  refine .bind (failsOnly_demand fun _ => permits _ nofun) fun _ _ => ?_
  refine .bind (.forM fun entry _ => failsOnly_checkEntry permits entry) fun _ _ => ?_
  refine .bind ?_ fun _ _ => .ok ()
  obtain ⟨_, operands, _⟩ :=
    nodesInOrder_iff.mp (checkSlots_eq_ok_iff.mp (forM_eq_ok_iff.mp checked))
  rcases operands.sort_cases with ⟨order, sorted⟩ | ⟨id, _, cyclic⟩
  · rw [sorted]
    exact .ok order
  · rw [cyclic]
    exact .error ⟨.cycle id, rfl⟩

theorem checkCounters_decides :
    Decides (aig.checkCounters recorded) (aig.WellFormedWith recorded) := by
  refine { accepts := checkCounters_eq_ok_iff, refuses := fun unlawful => ?_ }
  cases outcome : aig.checkCounters recorded with
  | error failure =>
      obtain ⟨fault, rfl⟩ := fault_of_checkCounters failure outcome
      exact ⟨fault, rfl⟩
  | ok done => exact absurd (checkCounters_eq_ok_iff.mp outcome) unlawful

private theorem getElem?_counters (id : Nat) :
    aig.counters[id]? = if id < aig.size then some (aig.outputRefs id) else none := by
  by_cases inside : id < aig.slots.size <;>
    simp [counters, outputRefs, slot, size, Array.getD, inside]

theorem wellFormedWith_counters_iff : aig.WellFormedWith aig.counters ↔ aig.WellFormed := by
  constructor
  · intro lawful
    have normal : ∀ gate fanins, aig.gateFanins? gate = some fanins →
        fanins.first < fanins.second ∧ fanins.first.node ≠ fanins.second.node ∧
          fanins.first.node ≠ 0 := by
      intro gate fanins stored
      obtain ⟨ascending, different, notConstant, _⟩ := lawful.operands gate fanins stored
      exact ⟨ascending, different, notConstant⟩
    have live : ∀ gate id, aig.GateReads gate id → aig.isDead id = false := by
      rintro gate id ⟨fanins, stored, rfl | rfl⟩
      · exact (lawful.operands gate fanins stored).2.2.2.2.1
      · exact (lawful.operands gate fanins stored).2.2.2.2.2
    refine { normal := normal, fanins_live := live, outputs_live := lawful.outputs
             refs := fun id => ?_, table_sound := lawful.entries
             toPlaced := lawful.toPlaced, inputs := lawful.inputs, fanouts := lawful.fanouts
             hashed := lawful.hashed, acyclic := lawful.acyclic }
    have counted := lawful.counted id
    rw [getElem?_counters] at counted
    by_cases inside : id < aig.size
    · simpa [inside] using counted
    · -- Beyond the arena there are no counters, and no output leads there.
      have unread : aig.outputs.countP (·.node == id) = 0 := by
        refine Array.countP_eq_zero.mpr fun output member same => ?_
        exact inside (beq_iff_eq.mp same ▸ lt_size_of_live (lawful.outputs output member))
      rw [unread, outputRefs, slot_of_size_le (Nat.le_of_not_lt inside)]
      rfl
  · intro wellFormed
    have operands := wellFormed.toReferences.operandsInOrder
    refine { toPlaced := wellFormed.toPlaced, operands := fun gate fanins stored => ?_
             hashed := wellFormed.hashed, entries := wellFormed.table_sound
             fanouts := wellFormed.fanouts, inputs := wellFormed.inputs
             outputs := wellFormed.outputs_live, counted := fun id => ?_
             acyclic := wellFormed.acyclic }
    · obtain ⟨ascending, different, first⟩ := wellFormed.normal gate fanins stored
      obtain ⟨_, second⟩ := node_ne_zero_of_stored wellFormed.toReferences stored
      exact ⟨ascending, different, first, second, (operands gate fanins stored).2⟩
    · rw [getElem?_counters, wellFormed.refs]

theorem checkIntegrity_eq_checkCounters :
    aig.checkIntegrity = aig.checkCounters aig.counters := by
  have agree : aig.refsAgree =
      (tally aig.outputs.toList (Array.replicate aig.size 0) == aig.counters) := by
    rw [Bool.eq_iff_iff, refsAgree_iff, beq_iff_eq, eq_tally_iff]
    refine forall_congr' fun id => ?_
    rw [getElem?_counters]
    by_cases inside : id < aig.size <;> simp [inside]
  rw [checkCounters_eq, ← agree, checkIntegrity]

/-- The integrity check decides whether a store is well-formed.  It looks at
the output counters of the slots; with any other table of counters, of
whatever length, it decides the laws with these counters.  In a store that
passes, no two gates have the same fanins. -/
theorem checkIntegrity_exact (aig : Aig) :
    Decides aig.checkIntegrity aig.WellFormed ∧
    aig.checkIntegrity = aig.checkCounters aig.counters ∧
    ∀ recorded : Array Nat,
      Decides (aig.checkCounters recorded) (aig.WellFormedWith recorded) ∧
      (aig.checkCounters recorded = .ok () → ∀ first second fanins,
        aig.gateFanins? first = some fanins → aig.gateFanins? second = some fanins →
          first = second) := by
  refine ⟨?_, checkIntegrity_eq_checkCounters, fun recorded => ⟨checkCounters_decides, ?_⟩⟩
  · rw [checkIntegrity_eq_checkCounters, ← wellFormedWith_counters_iff]
    exact checkCounters_decides
  · intro accepted first second fanins left right
    exact (checkCounters_eq_ok_iff.mp accepted).hashed.injective left right

end Aig

end AndInverter
