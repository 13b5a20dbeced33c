import AndInverter.Aig.Trimming
import AndInverter.Proofs.Aig.Isomorphism
import AndInverter.Proofs.Aig.Sessions
import AndInverter.Proofs.DepthView.Refreshing
import AndInverter.Proofs.Substitution.Uses

/-!
# Cleanup

Reclaiming takes out gates that nothing reads, so it never takes one from
below an output.  Each identifier is on a stack once, and no gate becomes
dangling that is not reclaimed at once, so after the scan none is left.  In an
acyclic graph without dangling gates, whoever climbs from reader to reader
comes to an output.
-/

namespace AndInverter

open Network

namespace Aig

variable {aig store : Aig}

theorem dangles_iff_dangling? {id : Nat} : aig.Dangles id ↔ (aig.dangling? id).isSome = true := by
  unfold Dangles dangling?
  split
  · rename_i unused
    simp [unused, isGate]
  · rename_i used
    simp [used]

theorem dangles_of_dangling? {id : Nat} {fanins : Fanins}
    (dangling : aig.dangling? id = some fanins) : aig.Dangles id :=
  dangles_iff_dangling?.mpr (Option.isSome_iff_exists.mpr ⟨fanins, dangling⟩)

/-! ### What reclaiming takes out -/

/-- A store from which gates were taken out that no output depends on. -/
structure Loses (aig store : Aig) : Prop where
  bookkeeping : store.Bookkeeping
  inputs : store.inputs = aig.inputs
  outputs : store.outputs = aig.outputs
  node : ∀ id, store.node? id = aig.node? id ∨
    store.node? id = none ∧ aig.isGate id = true ∧ ¬ aig.BelowOutputs id
  fanouts : ∀ id, store.fanouts id = (aig.fanouts id).filter store.isGate

theorem loses_self (bookkeeping : aig.Bookkeeping) : Loses aig aig := by
  constructor
  · exact bookkeeping
  · rfl
  · rfl
  · exact fun id => .inl rfl
  · intro id
    symm
    apply List.filter_eq_self.mpr
    intro gate member
    obtain ⟨fanins, stored, _⟩ := ((bookkeeping.fanouts id).mem_iff gate).mp member
    exact isGate_iff.mpr ⟨fanins, stored⟩

theorem Loses.gateFanins?_of_below (loses : Loses aig store) {id : Nat}
    (below : aig.BelowOutputs id) : store.gateFanins? id = aig.gateFanins? id := by
  rcases loses.node id with same | lost
  · rw [gateFanins?, same]
    rfl
  · exact absurd below lost.2.2

theorem Loses.gateFanins? (loses : Loses aig store) {id : Nat} {fanins : Fanins}
    (stored : store.gateFanins? id = some fanins) : aig.gateFanins? id = some fanins := by
  rcases loses.node id with same | lost
  · rw [← stored, Aig.gateFanins?, Aig.gateFanins?, same]
  · rw [Aig.gateFanins?, lost.1] at stored
    cases stored

theorem Loses.used (loses : Loses aig store) {id : Nat} (below : aig.BelowOutputs id) :
    store.Used id := by
  obtain ⟨root, isRoot, reaches⟩ := below
  rcases Relation.ReflTransGen.cases_tail reaches with same | ⟨gate, above, reads⟩
  · obtain ⟨output, listed, read⟩ := List.mem_map.mp isRoot
    refine .inr ⟨output, ?_, read.trans same.symm⟩
    rw [loses.outputs]
    exact Array.mem_toList_iff.mp listed
  · have kept := loses.gateFanins?_of_below ⟨root, isRoot, above⟩
    left
    exact ⟨gate, (gateReads_of_gateFanins? id kept).mpr (reads_iff.mp reads)⟩

/-- A reclaimed gate leaves the fanouts of all nodes, for it is in no others
than those of its fanins. -/
theorem Bookkeeping.fanouts_removeGate (bookkeeping : aig.Bookkeeping) {id : Nat}
    {fanins : Fanins} (stored : aig.gateFanins? id = some fanins) (other : Nat) :
    (aig.removeGate id fanins).fanouts other = (aig.fanouts other).filter (· ≠ id) := by
  rw [Aig.fanouts_removeGate]
  split
  · rfl
  · rename_i elsewhere
    symm
    apply List.filter_eq_self.mpr
    intro gate member
    apply decide_eq_true
    rintro rfl
    have reads := ((bookkeeping.fanouts other).mem_iff gate).mp member
    exact elsewhere ((gateReads_iff stored).mp reads)

theorem Loses.removeGate (loses : Loses aig store) {id : Nat} {fanins : Fanins}
    (dangling : store.dangling? id = some fanins) : Loses aig (store.removeGate id fanins) := by
  obtain ⟨unused, stored⟩ := dangling?_eq_some_iff.mp dangling
  have unread : ¬ aig.BelowOutputs id := by
    intro below
    exact loses.bookkeeping.fanoutSize_eq_zero_iff_not_used.mp unused (loses.used below)
  constructor
  · exact bookkeeping_removeGate loses.bookkeeping dangling
  · rw [inputs_removeGate, loses.inputs]
  · rw [outputs_removeGate, loses.outputs]
  · intro other
    rw [node?_removeGate]
    split
    · rename_i same
      obtain rfl := same.1
      exact .inr ⟨rfl, isGate_iff.mpr ⟨fanins, loses.gateFanins? stored⟩, unread⟩
    · exact loses.node other
  · intro other
    rw [loses.bookkeeping.fanouts_removeGate stored, loses.fanouts, List.filter_filter]
    apply List.filter_congr
    intro gate _
    rw [isGate_removeGate, Bool.and_comm]
    simp only [ne_eq, eq_comm]

theorem loses_cleanup (bookkeeping : aig.Bookkeeping) : Loses aig aig.cleanup :=
  cleanup_keep (Loses aig) (fun dangling loses => loses.removeGate dangling)
    (loses_self bookkeeping)

theorem Loses.reads (loses : Loses aig store) {source target : Nat}
    (reads : Reads store source target) : Reads aig source target := by
  obtain ⟨fanins, stored, sides⟩ := reads_iff.mp reads
  exact reads_iff.mpr ⟨fanins, loses.gateFanins? stored, sides⟩

theorem Loses.below_of_below (loses : Loses aig store) {id : Nat} (below : store.BelowOutputs id) :
    aig.BelowOutputs id := by
  obtain ⟨root, isRoot, reaches⟩ := below
  obtain ⟨output, member, rfl⟩ := List.mem_map.mp isRoot
  have listed : output ∈ store.outputs := Array.mem_toList_iff.mp member
  rw [loses.outputs] at listed
  obtain ⟨top, isTop, above⟩ := belowOutputs_of_output listed
  exact ⟨top, isTop, above.trans (Relation.ReflTransGen.mono (fun _ _ => loses.reads) _ _ reaches)⟩

theorem Loses.acyclic (loses : Loses aig store) (acyclic : aig.Acyclic) : store.Acyclic := by
  intro id cycle
  apply acyclic id
  exact Relation.TransGen.mono (fun _ _ => loses.reads) id id cycle

/-! ### What is left dangling -/

/-- Nothing dangles after the scan that did not dangle before and was not
scanned. -/
theorem dangling?_of_foldl_reclaim {ids : List Nat} {id : Nat} {fanins : Fanins}
    (dangling : (ids.foldl (fun aig id => (aig.reclaim [id]).1) aig).dangling? id =
      some fanins) : aig.dangling? id = some fanins ∧ id ∉ ids := by
  induction ids generalizing aig with
  | nil => exact ⟨dangling, List.not_mem_nil⟩
  | cons top ids induction =>
      obtain ⟨later, unscanned⟩ := induction dangling
      obtain ⟨former, offStack⟩ := dangling?_of_reclaim later
      refine ⟨former, ?_⟩
      intro member
      rcases List.mem_cons.mp member with rfl | rest
      · exact offStack List.mem_cons_self
      · exact unscanned rest

/-- The scan leaves out nothing but the constant. -/
theorem not_dangles_cleanup (ports : aig.Ports) (id : Nat) : ¬ aig.cleanup.Dangles id := by
  intro dangles
  obtain ⟨fanins, dangling⟩ := Option.isSome_iff_exists.mp (dangles_iff_dangling?.mp dangles)
  obtain ⟨former, unscanned⟩ := dangling?_of_foldl_reclaim dangling
  obtain ⟨_, stored⟩ := dangling?_eq_some_iff.mp former
  apply unscanned
  have inside := lt_size_of_gateFanins? stored
  have positive : id ≠ 0 := by
    intro zero
    have isGate := isGate_iff.mpr ⟨fanins, stored⟩
    rw [zero, ports.isGate_constant] at isGate
    cases isGate
  apply List.mem_range'_1.mpr
  omega

/-- Where nothing dangles, cleanup has nothing to do. -/
theorem cleanup_eq_self (tidy : ∀ id, ¬ aig.Dangles id) : aig.cleanup = aig := by
  have still : ∀ id, (aig.reclaim [id]).1 = aig := by
    intro id
    have none : aig.dangling? id = none := by
      apply Option.eq_none_iff_forall_ne_some.mpr
      intro fanins dangling
      exact tidy id (dangles_of_dangling? dangling)
    rw [reclaim]
    split
    · rw [reclaim]
    · rename_i present
      rw [none] at present
      cases present
  unfold cleanup
  generalize List.range' 1 (aig.size - 1) = ids
  induction ids with
  | nil => rfl
  | cons id ids induction => rw [List.foldl_cons, still, induction]

/-! ### Gates that are used -/

/-- If no gate dangles, an output depends on each: climbing to readers goes up
in level, and ends. -/
theorem below_of_tidy (bookkeeping : aig.Bookkeeping) (acyclic : aig.Acyclic)
    (tidy : ∀ id, ¬ aig.Dangles id) {id : Nat} (isGate : aig.isGate id = true) :
    aig.BelowOutputs id := by
  obtain ⟨view, seen⟩ := DepthView.exists_ofNetwork_of_bounded
    bookkeeping.toReferences.bounded acyclic
  obtain rfl := Rewriting.network_of_ofNetwork seen
  have agree := (DepthView.truthful_of_ofNetwork seen).levels
  induction gap : Network.size view.network - view.level id using Nat.strongRecOn
    generalizing id with
  | ind gap induction =>
      have used : view.network.Used id := by
        by_contra unused
        exact tidy id ⟨isGate, bookkeeping.fanoutSize_eq_zero_iff_not_used.mpr unused⟩
      rcases used with ⟨gate, reads⟩ | ⟨output, listed, read⟩
      · have present : view.network.isGate gate = true := by
          obtain ⟨fanins, stored, _⟩ := reads
          exact isGate_iff.mpr ⟨fanins, stored⟩
        have above := agree.above gate id (reads_iff.mpr reads)
        have height := agree.level_le_size gate
        have reached := induction (Network.size view.network - view.level gate) (by omega)
          present rfl
        exact reached.reads reads
      · rw [← read]
        exact belowOutputs_of_output listed

/-! ### The live logic -/

theorem trims_cleanup (bookkeeping : aig.Bookkeeping) (ports : aig.Ports)
    (acyclic : aig.Acyclic) : Trims aig aig.cleanup := by
  have loses := loses_cleanup bookkeeping
  have same : ∀ id, aig.cleanup.isDead id = false → aig.cleanup.node? id = aig.node? id := by
    intro id live
    rcases loses.node id with same | lost
    · exact same
    · rw [isDead, lost.1] at live
      cases live
  constructor
  · intro id
    constructor
    · intro isGate
      obtain ⟨fanins, stored⟩ := isGate_iff.mp isGate
      refine ⟨isGate_iff.mpr ⟨fanins, loses.gateFanins? stored⟩, ?_⟩
      apply loses.below_of_below
      exact below_of_tidy loses.bookkeeping (loses.acyclic acyclic) (not_dangles_cleanup ports)
        isGate
    · intro both
      obtain ⟨fanins, stored⟩ := isGate_iff.mp both.1
      exact isGate_iff.mpr ⟨fanins, (loses.gateFanins?_of_below both.2).trans stored⟩
  · exact same
  · intro id noGate
    rcases loses.node id with same | lost
    · exact same
    · rw [noGate] at lost
      cases lost.2.1
  · exact loses.inputs
  · exact loses.outputs
  · exact fun id _ => loses.fanouts id

/-- The trimmed graph is the part of the graph below its outputs. -/
theorem Trims.coneIsomorphism {next : Aig} (trims : Trims aig next) (references : aig.References)
    (ports : aig.Ports) : ConeIsomorphism aig next id := by
  constructor
  · rfl
  · rw [trims.inputs, Array.map_id]
  · rw [trims.outputs]
    exact (Array.map_id _).symm
  · intro gate fanins below stored
    have isGate := (trims.gates gate).mpr ⟨isGate_iff.mpr ⟨fanins, stored⟩, below⟩
    obtain ⟨pair, present⟩ := isGate_iff.mp isGate
    have same : next.gateFanins? gate = aig.gateFanins? gate := by
      rw [gateFanins?, gateFanins?, trims.kept gate (isDead_of_gateFanins? present)]
    have sorted : Fanins.ordered fanins.first fanins.second = fanins :=
      if_neg (Nat.lt_asymm (references.normal gate fanins stored).1)
    exact same.trans (stored.trans (congrArg some sorted.symm))
  · exact fun _ _ _ _ same => same
  · intro id live
    refine ⟨id, ?_, ?_, rfl⟩
    · have there : aig.isDead id = false := by
        rw [isDead, ← trims.kept id live]
        exact live
      rcases ports.live_cases there with constant | input | isGate
      · exact .inl constant
      · exact .inr (.inl input)
      · have kept : next.isGate id = true := by
          rw [Aig.isGate, gateFanins?, trims.kept id live]
          exact isGate
        exact .inr (.inr ((trims.gates id).mp kept).2)
    · rw [Aig.isGate, Aig.isGate, gateFanins?, gateFanins?, trims.kept id live]

/-- Cleanup keeps exactly the live logic of an acyclic graph.  No gate is left
without a use, each output computes the same function, and there is nothing
left to clean up. -/
theorem cleanup_exact (reachable : aig.Reachable) (acyclic : aig.Acyclic) :
    Trims aig aig.cleanup ∧ (∀ id, ¬ aig.cleanup.Dangles id) ∧
      aig.SameFunctions aig.cleanup ∧ aig.cleanup.cleanup = aig.cleanup := by
  have bookkeeping := reachable.bookkeeping
  have ports := reachable.ports
  have trims := trims_cleanup bookkeeping ports acyclic
  have tidy := not_dangles_cleanup ports
  have edits : Edits (fun _ => True) aig aig.cleanup := cleanup_edits aig
  refine ⟨trims, tidy, ?_, cleanup_eq_self tidy⟩
  exact (trims.coneIsomorphism bookkeeping.toReferences ports).sameFunctions
    bookkeeping.toReferences ports acyclic (edits.ports ports)

/-- Gate 6 reads a later gate and is read by gate 7, which dangles: only when
the scan is past gate 6 does that one have no use left. -/
theorem cleanup_exact_cascade : ∃ aig : Aig, aig.Reachable ∧ aig.Acyclic ∧
    aig.Dangles 7 ∧ ¬ aig.Dangles 6 ∧ aig.GateReads 6 9 ∧ ¬ aig.BelowOutputs 6 ∧
    aig.fanouts 9 = [5, 6] ∧ aig.cleanup.fanouts 9 = [5] ∧ aig.SameFunctions aig.cleanup ∧
    aig.cleanup.cleanup = aig.cleanup := by
  have checked : (do
      let ended ← Aig.empty.session [.addInput, .addInput, .addInput,
        .createAnd (.plain 1) (.plain 2), .createAnd (.plain 4) (.plain 3), .addOutput (.plain 5),
        .createAnd (.plain 4) (Edge.plain 3).not, .createAnd (.plain 6) (.plain 1),
        .createAnd (.plain 1) (.plain 3), .createAnd (.plain 8) (Edge.plain 2).not,
        .substitute 5 4 (.plain 9)]
      let _ ← DepthView.ofNetwork ended.1
      return decide (ended.1.isGate 7 = true ∧ ended.1.fanoutSize 7 = 0 ∧
        ended.1.fanouts 6 = [7] ∧ ended.1.fanouts 9 = [5, 6] ∧
        ended.1.cleanup.isGate 5 = true ∧ ended.1.cleanup.isGate 6 = false ∧
        ended.1.cleanup.isDead 9 = false)) = .ok true := by
    decide +kernel
  obtain ⟨⟨aig, changes⟩, ended, checked⟩ := bind_eq_ok.mp checked
  obtain ⟨view, seen, results⟩ := bind_eq_ok.mp checked
  obtain ⟨isGate, unused, top, readers, left, gone, live⟩ :=
    of_decide_eq_true (Except.ok.inj results)
  have reachable : aig.Reachable := evolves_of_session ended
  have acyclic : aig.Acyclic := Network.acyclic_of_ofNetwork seen
  obtain ⟨trims, _, functions, stable⟩ := cleanup_exact reachable acyclic
  have listed : 6 ∈ aig.fanouts 9 := by
    rw [readers]
    decide
  have reads := ((reachable.bookkeeping.fanouts 9).mem_iff 6).mp listed
  refine ⟨aig, reachable, acyclic, ⟨isGate, unused⟩, ?_, reads, ?_, readers, ?_, functions, stable⟩
  · intro dangles
    have none := dangles.2
    rw [fanoutSize, top] at none
    exact Nat.succ_ne_zero _ (Nat.eq_zero_of_add_eq_zero_right none)
  · intro below
    obtain ⟨fanins, stored, _⟩ := reads
    have kept := (trims.gates 6).mpr ⟨isGate_iff.mpr ⟨fanins, stored⟩, below⟩
    rw [gone] at kept
    cases kept
  · rw [trims.fanouts 9 live, readers, List.filter_cons_of_pos left,
      List.filter_cons_of_neg (Bool.not_eq_true _ ▸ gone), List.filter_nil]

end Aig

end AndInverter
