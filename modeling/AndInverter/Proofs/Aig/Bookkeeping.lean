import AndInverter.Proofs.Aig.Changes

/-!
# The bookkeeping law

Every elementary change keeps the bookkeeping of a store: fanouts list the
gates that read a node, counters count the outputs, and the structural table
says nothing wrong.
-/

namespace AndInverter

namespace Aig

private theorem nodup_append_singleton {gates : List Nat} {gate : Nat}
    (nodup : gates.Nodup) (absent : gate ∉ gates) : (gates ++ [gate]).Nodup := by
  apply List.nodup_append.mpr
  refine ⟨nodup, by simp, ?_⟩
  intro member present other last same
  rw [same, List.mem_singleton.mp last] at present
  exact absent present

theorem gateReads_of_gateFanins? {aig next : Aig} {gate : Nat} (id : Nat)
    (same : next.gateFanins? gate = aig.gateFanins? gate) :
    next.GateReads gate id ↔ aig.GateReads gate id := by
  simp [GateReads, same]

theorem gateReads_iff {aig : Aig} {gate id : Nat} {fanins : Fanins}
    (stored : aig.gateFanins? gate = some fanins) :
    aig.GateReads gate id ↔ fanins.first.node = id ∨ fanins.second.node = id := by
  simp [GateReads, stored]

private theorem not_gateReads_of_none {aig : Aig} {gate id : Nat}
    (absent : aig.gateFanins? gate = none) : ¬ aig.GateReads gate id := by
  simp [GateReads, absent]

/-- A node that no gate and no output reads has no uses on record. -/
theorem Bookkeeping.fanoutSize_eq_zero_iff {aig : Aig} (bookkeeping : aig.Bookkeeping)
    {id : Nat} :
    aig.fanoutSize id = 0 ↔
      (∀ gate, ¬ aig.GateReads gate id) ∧ ∀ output ∈ aig.outputs, output.node ≠ id := by
  have unread : aig.fanouts id = [] ↔ ∀ gate, ¬ aig.GateReads gate id := by
    rw [List.eq_nil_iff_forall_not_mem]
    exact forall_congr' fun gate => not_congr ((bookkeeping.fanouts id).mem_iff gate)
  rw [fanoutSize, Nat.add_eq_zero_iff, List.length_eq_zero_iff, unread,
    bookkeeping.refs id, Array.countP_eq_zero]
  simp

theorem dangling?_eq_some_iff {aig : Aig} {id : Nat} {fanins : Fanins} :
    aig.dangling? id = some fanins ↔
      aig.fanoutSize id = 0 ∧ aig.gateFanins? id = some fanins := by
  unfold dangling?
  split
  · rename_i unused
    simp [unused]
  · rename_i used
    simp [used]

theorem FanoutsAgree.congr {aig next : Aig} {id : Nat} (agree : aig.FanoutsAgree id)
    (fanouts : next.fanouts id = aig.fanouts id)
    (reads : ∀ gate, next.GateReads gate id ↔ aig.GateReads gate id) :
    next.FanoutsAgree id := by
  constructor
  · intro gate
    rw [fanouts, reads]
    exact agree.mem_iff gate
  · rw [fanouts]
    exact agree.nodup

theorem bookkeeping_empty : Aig.empty.Bookkeeping := by
  have noGate : ∀ id, Aig.empty.gateFanins? id = none := by
    intro id
    cases id with
    | zero => rfl
    | succ id => exact gateFanins?_eq_none_of_size_le (Nat.le_add_left 1 id)
  have noFanouts : ∀ id, Aig.empty.fanouts id = [] := by
    intro id
    cases id with
    | zero => rfl
    | succ id => exact fanouts_of_size_le (Nat.le_add_left 1 id)
  have noRefs : ∀ id, Aig.empty.outputRefs id = 0 := by
    intro id
    cases id with
    | zero => rfl
    | succ id => exact outputRefs_of_size_le (Nat.le_add_left 1 id)
  refine { normal := ?_, fanins_live := ?_, outputs_live := ?_, refs := ?_,
           table_sound := ?_, fanouts := ?_ }
  · intro gate fanins stored
    simp [noGate] at stored
  · intro gate id reads
    exact absurd reads (not_gateReads_of_none (noGate gate))
  · intro output member
    simp [Aig.empty] at member
  · intro id
    rw [noRefs]
    rfl
  · intro fanins gate found
    simp [Aig.empty] at found
  · intro id
    refine ⟨fun gate => ?_, by simp [noFanouts]⟩
    simp [noFanouts, GateReads, noGate]

theorem bookkeeping_addInput {aig : Aig} (bookkeeping : aig.Bookkeeping) :
    aig.addInput.2.Bookkeeping := by
  have live : ∀ id, aig.isDead id = false → aig.addInput.2.isDead id = false := by
    intro id stored
    rw [isDead, node?_addInput]
    split
    · rfl
    · exact stored
  have reads : ∀ gate id, aig.addInput.2.GateReads gate id ↔ aig.GateReads gate id :=
    fun gate id => gateReads_of_gateFanins? id (gateFanins?_addInput aig gate)
  refine { normal := ?_, fanins_live := ?_, outputs_live := ?_, refs := ?_,
           table_sound := ?_, fanouts := ?_ }
  · intro gate fanins stored
    rw [gateFanins?_addInput] at stored
    exact bookkeeping.normal gate fanins stored
  · intro gate id read
    exact live id (bookkeeping.fanins_live gate id ((reads gate id).mp read))
  · intro output member
    exact live output.node (bookkeeping.outputs_live output member)
  · intro id
    rw [outputRefs_addInput, outputs_addInput]
    exact bookkeeping.refs id
  · intro fanins gate found
    rw [gateFanins?_addInput]
    exact bookkeeping.table_sound fanins gate found
  · intro id
    apply (bookkeeping.fanouts id).congr
    · exact fanouts_addInput aig id
    · intro gate
      exact reads gate id

theorem bookkeeping_appendOutput {aig : Aig} {edge : Edge} (bookkeeping : aig.Bookkeeping)
    (live : aig.isDead edge.node = false) : (aig.appendOutput edge).Bookkeeping := by
  have alive : ∀ id, (aig.appendOutput edge).isDead id = aig.isDead id := by
    intro id
    simp [isDead]
  have reads : ∀ gate id, (aig.appendOutput edge).GateReads gate id ↔ aig.GateReads gate id :=
    fun gate id => gateReads_of_gateFanins? id (gateFanins?_appendOutput aig edge gate)
  refine { normal := ?_, fanins_live := ?_, outputs_live := ?_, refs := ?_,
           table_sound := ?_, fanouts := ?_ }
  · intro gate fanins stored
    rw [gateFanins?_appendOutput] at stored
    exact bookkeeping.normal gate fanins stored
  · intro gate id read
    rw [alive]
    exact bookkeeping.fanins_live gate id ((reads gate id).mp read)
  · intro output member
    rw [alive]
    rcases Array.mem_push.mp member with former | rfl
    · exact bookkeeping.outputs_live output former
    · exact live
  · intro id
    rw [outputRefs_appendOutput, outputs_appendOutput, Array.countP_push, ← bookkeeping.refs id]
    by_cases same : edge.node = id
    · subst same
      simp [lt_size_of_live live]
    · simp [same]
  · intro fanins gate found
    rw [gateFanins?_appendOutput]
    exact bookkeeping.table_sound fanins gate found
  · intro id
    apply (bookkeeping.fanouts id).congr
    · exact fanouts_appendOutput aig edge id
    · intro gate
      exact reads gate id

theorem gateReads_addGate {aig : Aig} {fanins : Fanins} (gate id : Nat) :
    (aig.addGate fanins).2.GateReads gate id ↔
      if gate = aig.size then fanins.first.node = id ∨ fanins.second.node = id
      else aig.GateReads gate id := by
  split
  · rename_i new
    exact gateReads_iff (by rw [gateFanins?_addGate, if_pos new])
  · rename_i former
    exact gateReads_of_gateFanins? id (by rw [gateFanins?_addGate, if_neg former])

theorem bookkeeping_addGate {aig : Aig} {fanins : Fanins} (bookkeeping : aig.Bookkeeping)
    (normal : fanins.isNormal = true) (first : aig.isDead fanins.first.node = false)
    (second : aig.isDead fanins.second.node = false) :
    (aig.addGate fanins).2.Bookkeeping := by
  have live : ∀ id, aig.isDead id = false → (aig.addGate fanins).2.isDead id = false := by
    intro id stored
    rw [isDead, node?_addGate]
    split
    · rfl
    · exact stored
  have fresh : ∀ id, ¬ aig.GateReads aig.size id :=
    fun _ => not_gateReads_of_none (gateFanins?_eq_none_of_size_le (Nat.le_refl _))
  have unread : ∀ gate, ¬ aig.GateReads gate aig.size := by
    intro gate read
    exact Nat.lt_irrefl _ (lt_size_of_live (bookkeeping.fanins_live gate aig.size read))
  refine { normal := ?_, fanins_live := ?_, outputs_live := ?_, refs := ?_,
           table_sound := ?_, fanouts := ?_ }
  · intro gate pair stored
    rw [gateFanins?_addGate] at stored
    split at stored
    · cases stored
      exact Fanins.isNormal_iff.mp normal
    · exact bookkeeping.normal gate pair stored
  · intro gate id read
    rw [gateReads_addGate] at read
    split at read
    · rcases read with rfl | rfl
      · exact live _ first
      · exact live _ second
    · exact live id (bookkeeping.fanins_live gate id read)
  · intro output member
    exact live output.node (bookkeeping.outputs_live output member)
  · intro id
    rw [outputRefs_addGate, outputs_addGate, ← bookkeeping.refs id]
    split
    · rename_i new
      rw [outputRefs_of_size_le (Nat.le_of_eq new.symm)]
    · rfl
  · intro key gate found
    rw [getElem?_addGate] at found
    rw [gateFanins?_addGate]
    split at found
    · rename_i same
      cases found
      rw [if_pos rfl, same]
    · have stored := bookkeeping.table_sound key gate found
      rw [if_neg (Nat.ne_of_lt (lt_size_of_gateFanins? stored)), stored]
  · intro id
    have former := bookkeeping.fanouts id
    refine ⟨fun gate => ?_, ?_⟩
    · rw [fanouts_addGate aig normal first second, gateReads_addGate]
      by_cases new : id = aig.size
      · subst new
        have notFirst : fanins.first.node ≠ aig.size := Nat.ne_of_lt (lt_size_of_live first)
        have notSecond : fanins.second.node ≠ aig.size :=
          Nat.ne_of_lt (lt_size_of_live second)
        by_cases own : gate = aig.size
        · simp [own, notFirst, notSecond]
        · simp [own, unread gate]
      · by_cases own : gate = aig.size
        · subst own
          by_cases read : fanins.first.node = id ∨ fanins.second.node = id
          · simp [new, read]
          · simp [new, read, former.mem_iff, fresh id]
        · by_cases read : fanins.first.node = id ∨ fanins.second.node = id
          · simp [new, own, read, former.mem_iff]
          · simp [new, own, read, former.mem_iff]
    · rw [fanouts_addGate aig normal first second]
      split
      · exact List.nodup_nil
      · split
        · exact nodup_append_singleton former.nodup fun member =>
            fresh id ((former.mem_iff _).mp member)
        · exact former.nodup

private theorem countP_redirect {substitution : Substitution} (outputs : List Edge)
    (different : substitution.new.node ≠ substitution.old) (id : Nat) :
    (outputs.map (redirect substitution)).countP (·.node == id) =
      if substitution.new.node = id then
        outputs.countP (·.node == id) + outputs.countP (·.node = substitution.old)
      else if substitution.old = id then 0
      else outputs.countP (·.node == id) := by
  induction outputs with
  | nil => simp
  | cons output outputs induction =>
      simp only [List.map_cons, List.countP_cons, induction]
      by_cases reads : output.node = substitution.old
      · by_cases isNew : substitution.new.node = id
        · have notOld : substitution.old ≠ id := isNew ▸ different.symm
          simp [redirect, reads, isNew, notOld]
          omega
        · by_cases isOld : substitution.old = id
          · simp [redirect, reads, isNew, isOld]
          · simp [redirect, reads, isNew, isOld]
      · by_cases isNew : substitution.new.node = id
        · simp only [redirect, reads, isNew, if_true, if_false, decide_false]
          simp
          omega
        · by_cases isOld : substitution.old = id
          · have notRead : output.node ≠ id := isOld ▸ reads
            simp [redirect, isNew, isOld, notRead]
          · simp [redirect, reads, isNew, isOld]

theorem bookkeeping_redirectOutputs {aig : Aig} {substitution : Substitution}
    (bookkeeping : aig.Bookkeeping) (applies : aig.applies substitution = true) :
    (aig.redirectOutputs substitution).Bookkeeping := by
  obtain ⟨different, oldLive, newLive⟩ := applies_iff.mp applies
  have reads : ∀ gate id,
      (aig.redirectOutputs substitution).GateReads gate id ↔ aig.GateReads gate id :=
    fun gate id => gateReads_of_gateFanins? id (gateFanins?_redirectOutputs aig _ gate)
  refine { normal := ?_, fanins_live := ?_, outputs_live := ?_, refs := ?_,
           table_sound := ?_, fanouts := ?_ }
  · intro gate fanins stored
    rw [gateFanins?_redirectOutputs] at stored
    exact bookkeeping.normal gate fanins stored
  · intro gate id read
    rw [isDead_redirectOutputs]
    exact bookkeeping.fanins_live gate id ((reads gate id).mp read)
  · intro output member
    rw [isDead_redirectOutputs]
    rw [outputs_redirectOutputs] at member
    obtain ⟨former, present, rfl⟩ := Array.mem_map.mp member
    unfold redirect
    split
    · exact newLive
    · exact bookkeeping.outputs_live former present
  · intro id
    have counted := countP_redirect aig.outputs.toList different id
    have moved : aig.outputRefs substitution.old =
        aig.outputs.countP (·.node = substitution.old) := bookkeeping.refs _
    simp only [← Array.toList_map, Array.countP_toList] at counted
    rw [outputRefs_redirectOutputs aig applies, outputs_redirectOutputs, counted,
      ← bookkeeping.refs id]
    split
    · rfl
    · split
      · rename_i isOld
        rw [← isOld, moved, Nat.sub_self]
      · rfl
  · intro fanins gate found
    rw [gateFanins?_redirectOutputs]
    exact bookkeeping.table_sound fanins gate found
  · intro id
    apply (bookkeeping.fanouts id).congr
    · exact fanouts_redirectOutputs aig substitution id
    · intro gate
      exact reads gate id

/-- A gate that is given other fanins reads the new node in place of the old
one, and did not read the new one before. -/
theorem gateReads_setFanins {aig : Aig} (references : aig.References) {gate : Nat}
    {before after : Fanins} {substitution : Substitution}
    (stored : aig.gateFanins? gate = some before)
    (replaced : before.replace? substitution = some after)
    (unmerged : aig.merged? substitution.old after = none) :
    ∃ kept, kept ≠ substitution.old ∧ kept ≠ substitution.new.node ∧
      (∀ id, aig.GateReads gate id ↔ kept = id ∨ substitution.old = id) ∧
      ∀ id, (aig.setFanins gate before after substitution).GateReads gate id ↔
        kept = id ∨ substitution.new.node = id := by
  obtain ⟨_, different, _⟩ := references.normal gate before stored
  obtain ⟨kept, read, readsOld, sides, rfl⟩ := Fanins.replace?_cases replaced
  have reduced := Fanins.trivial?_eq_none_iff.mp (merged?_eq_none_iff.mp unmerged).1
  have apart : kept.node ≠ substitution.new.node := by
    intro same
    apply reduced.1
    unfold Fanins.ordered
    split
    · exact same.symm
    · exact same
  refine ⟨kept.node, ?_, apart, fun id => ?_, fun id => ?_⟩
  · rcases sides with ⟨rfl, rfl⟩ | ⟨rfl, rfl⟩
    · rw [← readsOld]
      exact different.symm
    · rw [← readsOld]
      exact different
  · rw [gateReads_iff stored, ← readsOld]
    rcases sides with ⟨rfl, rfl⟩ | ⟨rfl, rfl⟩
    · exact or_comm
    · exact Iff.rfl
  · have renewed : (aig.setFanins gate before _ substitution).gateFanins? gate = some _ :=
      (gateFanins?_setFanins (.ordered kept (substitution.new.complementIf read.complement))
        substitution stored gate).trans (if_pos rfl)
    rw [gateReads_iff renewed]
    exact Fanins.node_ordered_iff

theorem bookkeeping_setFanins {aig : Aig} {gate : Nat} {before after : Fanins}
    {substitution : Substitution} (bookkeeping : aig.Bookkeeping)
    (applies : aig.applies substitution = true)
    (stored : aig.gateFanins? gate = some before)
    (replaced : before.replace? substitution = some after)
    (unmerged : aig.merged? substitution.old after = none) :
    (aig.setFanins gate before after substitution).Bookkeeping := by
  obtain ⟨different, oldLive, newLive⟩ := applies_iff.mp applies
  obtain ⟨kept, keptNotOld, keptNotNew, readsBefore, readsAfter⟩ :=
    gateReads_setFanins bookkeeping.toReferences stored replaced unmerged
  have readsOther : ∀ other id, gate ≠ other →
      ((aig.setFanins gate before after substitution).GateReads other id ↔
        aig.GateReads other id) := by
    intro other id another
    exact gateReads_of_gateFanins? id
      (by rw [gateFanins?_setFanins after substitution stored, if_neg another])
  have normal : after.isNormal = true := by
    obtain ⟨_, _, _, _, rfl⟩ := Fanins.replace?_cases replaced
    exact Fanins.isNormal_ordered (merged?_eq_none_iff.mp unmerged).1
  refine { normal := ?_, fanins_live := ?_, outputs_live := ?_, refs := ?_,
           table_sound := ?_, fanouts := ?_ }
  · intro other fanins present
    rw [gateFanins?_setFanins after substitution stored] at present
    split at present
    · cases present
      exact Fanins.isNormal_iff.mp normal
    · exact bookkeeping.normal other fanins present
  · intro other id read
    rw [isDead_setFanins after substitution stored]
    by_cases own : gate = other
    · subst own
      rcases (readsAfter id).mp read with rfl | rfl
      · exact bookkeeping.fanins_live gate kept ((readsBefore kept).mpr (.inl rfl))
      · exact newLive
    · exact bookkeeping.fanins_live other id ((readsOther other id own).mp read)
  · intro output member
    rw [isDead_setFanins after substitution stored]
    rw [outputs_setFanins] at member
    exact bookkeeping.outputs_live output member
  · intro id
    rw [outputRefs_setFanins, outputs_setFanins]
    exact bookkeeping.refs id
  · intro key other found
    rw [getElem?_setFanins] at found
    rw [gateFanins?_setFanins after substitution stored]
    split at found
    · rename_i same
      cases found
      rw [if_pos rfl, same]
    · split at found
      · cases found
      · rename_i unhashed
        have sound := bookkeeping.table_sound key other found
        have another : gate ≠ other := by
          rintro rfl
          have same : before = key := Option.some.inj (stored.symm.trans sound)
          exact unhashed ⟨same, same ▸ found⟩
        rw [if_neg another, sound]
  · intro id
    have former := bookkeeping.fanouts id
    have newUnread : substitution.new.node = id → ¬ aig.GateReads gate id := by
      rintro rfl read
      rcases (readsBefore _).mp read with same | same
      · exact keptNotNew same
      · exact different same.symm
    refine ⟨fun other => ?_, ?_⟩
    · rw [fanouts_setFanins after applies]
      by_cases own : gate = other
      · subst own
        rw [readsAfter]
        by_cases isNew : substitution.new.node = id
        · simp [isNew]
        · by_cases isOld : substitution.old = id
          · simp [isNew, isOld, isOld ▸ keptNotOld]
          · simp [isNew, isOld, former.mem_iff, readsBefore]
      · rw [readsOther other id own]
        by_cases isNew : substitution.new.node = id
        · simp [isNew, former.mem_iff, Ne.symm own]
        · by_cases isOld : substitution.old = id
          · simp [isNew, isOld, former.mem_iff, Ne.symm own]
          · simp [isNew, isOld, former.mem_iff]
    · rw [fanouts_setFanins after applies]
      split
      · rename_i isNew
        exact nodup_append_singleton former.nodup fun member =>
          newUnread isNew ((former.mem_iff _).mp member)
      · split
        · exact former.nodup.filter _
        · exact former.nodup

theorem gateReads_removeGate {aig : Aig} {id : Nat} (fanins : Fanins) (gate other : Nat) :
    (aig.removeGate id fanins).GateReads gate other ↔
      id ≠ gate ∧ aig.GateReads gate other := by
  by_cases own : id = gate
  · have absent : (aig.removeGate id fanins).gateFanins? gate = none := by
      rw [gateFanins?_removeGate, if_pos own]
    simp [own, not_gateReads_of_none (own ▸ absent)]
  · have same : (aig.removeGate id fanins).gateFanins? gate = aig.gateFanins? gate := by
      rw [gateFanins?_removeGate, if_neg own]
    simp [own, gateReads_of_gateFanins? other same]

theorem bookkeeping_removeGate {aig : Aig} {id : Nat} {fanins : Fanins}
    (bookkeeping : aig.Bookkeeping) (dangling : aig.dangling? id = some fanins) :
    (aig.removeGate id fanins).Bookkeeping := by
  obtain ⟨unused, stored⟩ := dangling?_eq_some_iff.mp dangling
  obtain ⟨unread, noOutput⟩ := bookkeeping.fanoutSize_eq_zero_iff.mp unused
  have alive : ∀ other, id ≠ other → aig.isDead other = false →
      (aig.removeGate id fanins).isDead other = false := by
    intro other another live
    rw [isDead, node?_removeGate, if_neg (fun both => another both.1)]
    exact live
  refine { normal := ?_, fanins_live := ?_, outputs_live := ?_, refs := ?_,
           table_sound := ?_, fanouts := ?_ }
  · intro gate pair present
    rw [gateFanins?_removeGate] at present
    split at present
    · cases present
    · exact bookkeeping.normal gate pair present
  · intro gate other read
    obtain ⟨_, former⟩ := (gateReads_removeGate fanins gate other).mp read
    have another : id ≠ other := by
      rintro rfl
      exact unread gate former
    exact alive other another (bookkeeping.fanins_live gate other former)
  · intro output member
    rw [outputs_removeGate] at member
    exact alive output.node (Ne.symm (noOutput output member))
      (bookkeeping.outputs_live output member)
  · intro other
    rw [outputRefs_removeGate, outputs_removeGate]
    exact bookkeeping.refs other
  · intro key gate found
    rw [getElem?_removeGate] at found
    split at found
    · cases found
    · rename_i unhashed
      have sound := bookkeeping.table_sound key gate found
      have another : id ≠ gate := by
        rintro rfl
        have same : fanins = key := Option.some.inj (stored.symm.trans sound)
        exact unhashed ⟨same, same ▸ found⟩
      rw [gateFanins?_removeGate, if_neg another, sound]
  · intro other
    have former := bookkeeping.fanouts other
    refine ⟨fun gate => ?_, ?_⟩
    · rw [fanouts_removeGate, gateReads_removeGate]
      by_cases read : fanins.first.node = other ∨ fanins.second.node = other
      · simp only [read, if_true, List.mem_filter, former.mem_iff, decide_eq_true_eq]
        exact ⟨fun both => ⟨Ne.symm both.2, both.1⟩, fun both => ⟨both.2, Ne.symm both.1⟩⟩
      · have notOwn : aig.GateReads gate other → id ≠ gate := by
          rintro reads rfl
          exact read ((gateReads_iff stored).mp reads)
        simp only [read, if_false, former.mem_iff]
        exact ⟨fun reads => ⟨notOwn reads, reads⟩, fun both => both.2⟩
    · rw [fanouts_removeGate]
      split
      · exact former.nodup.filter _
      · exact former.nodup

/-- Elementary changes keep the bookkeeping. -/
theorem Edit.bookkeeping {olds : Nat → Prop} {aig next : Aig} (edit : Edit olds aig next)
    (bookkeeping : aig.Bookkeeping) : next.Bookkeeping := by
  cases edit with
  | addInput => exact bookkeeping_addInput bookkeeping
  | addOutput live => exact bookkeeping_appendOutput bookkeeping live
  | addGate normal first second _ => exact bookkeeping_addGate bookkeeping normal first second
  | redirect _ applies => exact bookkeeping_redirectOutputs bookkeeping applies
  | rewire _ applies stored replaced unmerged =>
      exact bookkeeping_setFanins bookkeeping applies stored replaced unmerged
  | remove dangling => exact bookkeeping_removeGate bookkeeping dangling

theorem Edits.bookkeeping {olds : Nat → Prop} {aig next : Aig} (edits : Edits olds aig next)
    (bookkeeping : aig.Bookkeeping) : next.Bookkeeping :=
  edits.keep Bookkeeping (fun edit => edit.bookkeeping) bookkeeping

end Aig

end AndInverter
