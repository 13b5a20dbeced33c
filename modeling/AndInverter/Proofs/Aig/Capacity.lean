import AndInverter.Aig.Capacity
import AndInverter.Proofs.Aig.Verdicts
import AndInverter.Proofs.Substitution.Uses

/-!
# Counting in 32 bits

An operation that counts in words of 32 bits does the same as the one that
counts without a bound, until a counter has no next word.  The integrity check
accepts the well-formed stores whose counters fit.  No counter is larger than
the number of outputs, whatever operations led to a store, so a substitution
moves its outputs as without a bound if there are fewer than 2^32.
-/

namespace AndInverter

namespace Counter

private theorem requireRoom_of_lt {counter : Nat} (room : counter + 1 < limit) :
    requireRoom counter = .ok () := by
  simp [requireRoom, room]

private theorem requireRoom_of_le {counter : Nat} (full : limit ≤ counter + 1) :
    requireRoom counter = .error .assertion := by
  simp [requireRoom, require, Nat.not_lt.mpr full]

private theorem requireUse_of_lt {counter : Nat} (used : 0 < counter) :
    requireUse counter = .ok () := by
  simp [requireUse, used]

end Counter

namespace Aig

variable {aig : Aig}

/-! ### Outputs -/

theorem addOutputCounted_of_lt {edge : Edge}
    (room : aig.outputRefs edge.node + 1 < Counter.limit) :
    aig.addOutputCounted edge = aig.addOutput edge := by
  rw [addOutputCounted, Counter.requireRoom_of_lt room]
  rfl

/-- One output too many on a node of the store. -/
theorem addOutputCounted_of_le {edge : Edge} (live : aig.isDead edge.node = false)
    (full : Counter.limit ≤ aig.outputRefs edge.node + 1) :
    aig.addOutputCounted edge = .error .assertion := by
  simp only [addOutputCounted, checkEdge, live, Counter.requireRoom_of_le full]
  rfl

theorem CountersFit.appendOutput (fits : aig.CountersFit) {edge : Edge}
    (room : aig.outputRefs edge.node + 1 < Counter.limit) :
    (aig.appendOutput edge).CountersFit := by
  intro id
  rw [outputRefs_appendOutput]
  split
  · rename_i own
    exact own.1 ▸ room
  · exact fits id

/-! ### The integrity check -/

private theorem getD_replicate_zero (size id : Nat) : (Array.replicate size 0).getD id 0 = 0 := by
  rw [Array.getD_eq_getD_getElem?, Array.getElem?_replicate]
  split <;> rfl

private theorem getD_modify_succ {counted : Array Nat} {node : Nat} (inside : node < counted.size)
    (id : Nat) :
    (counted.modify node (· + 1)).getD id 0 = counted.getD id 0 + if node = id then 1 else 0 := by
  simp only [Array.getD_eq_getD_getElem?, Array.getElem?_modify]
  by_cases own : node = id
  · subst own
    simp [inside]
  · simp [own]

/-- Counting goes on as without a bound while there is room for the outputs of
each node. -/
theorem foldlM_countOutputCounted (outputs : List Edge) {counted : Array Nat}
    (room : ∀ id, counted.getD id 0 + outputs.countP (·.node == id) < Counter.limit) :
    outputs.foldlM aig.countOutputCounted counted = outputs.foldlM aig.countOutput counted := by
  induction outputs generalizing counted with
  | nil => rfl
  | cons output outputs induction =>
      simp only [List.countP_cons, beq_iff_eq] at room
      have own := room output.node
      rw [if_pos rfl] at own
      have step : aig.countOutputCounted counted output = aig.countOutput counted output := by
        rw [countOutputCounted, Counter.requireRoom_of_lt (by omega)]
        rfl
      rw [List.foldlM_cons, List.foldlM_cons, step]
      cases counts : aig.countOutput counted output with
      | error failure => rfl
      | ok next =>
          simp only [countOutput, bind_eq_ok, require_eq_ok, decide_eq_true_eq,
            pure_eq_ok] at counts
          obtain ⟨_, _, _, inside, rfl⟩ := counts
          refine induction fun id => ?_
          have others := room id
          rw [getD_modify_succ inside]
          omega

/-- What was counted in words fits into words. -/
theorem lt_limit_of_foldlM_countOutputCounted {outputs : List Edge} {counted result : Array Nat}
    (fits : ∀ id, counted.getD id 0 < Counter.limit)
    (counts : outputs.foldlM aig.countOutputCounted counted = .ok result) (id : Nat) :
    counted.getD id 0 + outputs.countP (·.node == id) < Counter.limit := by
  induction outputs generalizing counted with
  | nil => simpa using fits id
  | cons output outputs induction =>
      rw [List.foldlM_cons] at counts
      obtain ⟨next, first, rest⟩ := bind_eq_ok.mp counts
      simp only [countOutputCounted, Counter.requireRoom, bind_eq_ok, require_eq_ok,
        decide_eq_true_eq, pure_eq_ok] at first
      obtain ⟨_, _, _, inside, _, room, rfl⟩ := first
      have rest := induction (fun other => ?_) rest
      · rw [getD_modify_succ inside] at rest
        simp only [List.countP_cons, beq_iff_eq]
        omega
      · rw [getD_modify_succ inside]
        split
        · rename_i own
          exact own ▸ room
        · exact fits other

/-- The check counts without a bound as long as the counters fit. -/
theorem checkIntegrityCounted_eq
    (room : ∀ id, aig.outputs.countP (·.node == id) < Counter.limit) :
    aig.checkIntegrityCounted = aig.checkIntegrity := by
  have counts : aig.outputs.toList.foldlM aig.countOutputCounted (Array.replicate aig.size 0) =
      aig.outputs.toList.foldlM aig.countOutput (Array.replicate aig.size 0) := by
    refine foldlM_countOutputCounted _ fun id => ?_
    rw [getD_replicate_zero, Array.countP_toList, Nat.zero_add]
    exact room id
  rw [checkIntegrity_eq_checkCounters, checkIntegrityCounted, counts]
  rfl

/-- A store passes the check that counts in words exactly if it is well-formed
and its counters are words. -/
theorem checkIntegrityCounted_eq_ok_iff :
    aig.checkIntegrityCounted = .ok () ↔ aig.WellFormed ∧ aig.CountersFit := by
  constructor
  · intro checked
    have room : ∀ id, aig.outputs.countP (·.node == id) < Counter.limit := by
      simp only [checkIntegrityCounted, bind_eq_ok] at checked
      obtain ⟨_, _, _, _, _, counts, _⟩ := checked
      intro id
      have few := lt_limit_of_foldlM_countOutputCounted (fun other => ?_) counts id
      · rwa [getD_replicate_zero, Array.countP_toList, Nat.zero_add] at few
      · rw [getD_replicate_zero]
        decide
    have wellFormed : aig.WellFormed := by
      rw [← wellFormedWith_counters_iff, ← checkCounters_eq_ok_iff,
        ← checkIntegrity_eq_checkCounters, ← checkIntegrityCounted_eq room]
      exact checked
    exact ⟨wellFormed, fun id => by rw [wellFormed.refs]; exact room id⟩
  · rintro ⟨wellFormed, fits⟩
    rw [checkIntegrityCounted_eq fun id => by rw [← wellFormed.refs]; exact fits id]
    exact wellFormed.checkIntegrity

/-! ### How many outputs it takes -/

theorem Bookkeeping.outputRefs_le (bookkeeping : aig.Bookkeeping) (id : Nat) :
    aig.outputRefs id ≤ aig.outputs.size := by
  rw [bookkeeping.refs]
  exact Array.countP_le_size

/-- With fewer than 2^32 outputs no elementary change makes a counter leave the
words of 32 bits. -/
theorem Edits.countersFit {olds : Nat → Prop} {next : Aig} (edits : Edits olds aig next)
    (bookkeeping : aig.Bookkeeping) (few : next.outputs.size < Counter.limit) :
    next.CountersFit :=
  fun id => Nat.lt_of_le_of_lt ((edits.bookkeeping bookkeeping).outputRefs_le id) few

theorem Reachable.countersFit (reachable : aig.Reachable)
    (few : aig.outputs.size < Counter.limit) : aig.CountersFit :=
  fun id => Nat.lt_of_le_of_lt (reachable.bookkeeping.outputRefs_le id) few

/-! ### Substitutions -/

private theorem adjustRefs_adjustRefs (aig : Aig) (id : Nat) (first second : Nat → Nat) :
    (aig.adjustRefs id first).adjustRefs id second = aig.adjustRefs id (second ∘ first) := by
  simp only [adjustRefs, modifySlot]
  congr 1
  apply Array.ext_getElem?
  intro position
  simp only [Array.getElem?_modify]
  split
  · rw [Option.map_map]
    rfl
  · rfl

private theorem adjustRefs_comm (aig : Aig) {id other : Nat} (different : id ≠ other)
    (first second : Nat → Nat) :
    (aig.adjustRefs id first).adjustRefs other second =
      (aig.adjustRefs other second).adjustRefs id first := by
  simp only [adjustRefs, modifySlot]
  congr 1
  apply Array.ext_getElem?
  intro position
  simp only [Array.getElem?_modify]
  by_cases own : id = position
  · subst own
    simp [Ne.symm different]
  · simp [own]

private theorem adjustRefs_self (aig : Aig) (id : Nat) :
    aig.adjustRefs id (fun counter => counter) = aig := by
  simp only [adjustRefs, modifySlot]
  have same : (aig.slots.modify id fun slot => { slot with outputRefs := slot.outputRefs }) =
      aig.slots := by
    apply Array.ext_getElem?
    intro position
    simp [Array.getElem?_modify]
  rw [same]

/-- Moves a number of outputs from the old node to the new one. -/
def moveOutputs (aig : Aig) (substitution : Substitution) (count : Nat) : Aig :=
  (aig.adjustRefs substitution.old (· - count)).adjustRefs substitution.new.node (· + count)

theorem moveOutputs_zero (aig : Aig) (substitution : Substitution) :
    aig.moveOutputs substitution 0 = aig := by
  show (aig.adjustRefs substitution.old fun counter => counter).adjustRefs
    substitution.new.node (fun counter => counter) = aig
  rw [adjustRefs_self, adjustRefs_self]

theorem moveOutputs_moveOutputs {substitution : Substitution}
    (different : substitution.new.node ≠ substitution.old) (first second : Nat) :
    (aig.moveOutputs substitution first).moveOutputs substitution second =
      aig.moveOutputs substitution (first + second) := by
  simp only [moveOutputs]
  rw [adjustRefs_comm _ different, adjustRefs_adjustRefs, adjustRefs_adjustRefs]
  congr 2
  · funext counter
    show counter - first - second = _
    omega
  · funext counter
    show counter + first + second = _
    omega

@[simp] theorem isDead_moveOutputs (aig : Aig) (substitution : Substitution) (count id : Nat) :
    (aig.moveOutputs substitution count).isDead id = aig.isDead id := by
  simp [isDead, moveOutputs]

theorem applies_moveOutputs (aig : Aig) (substitution : Substitution) (count : Nat) :
    (aig.moveOutputs substitution count).applies substitution = aig.applies substitution := by
  simp [applies]

theorem outputRefs_moveOutputs {substitution : Substitution}
    (applies : aig.applies substitution = true) (count : Nat) :
    (aig.moveOutputs substitution count).outputRefs substitution.old =
        aig.outputRefs substitution.old - count ∧
      (aig.moveOutputs substitution count).outputRefs substitution.new.node =
        aig.outputRefs substitution.new.node + count := by
  obtain ⟨different, oldLive, newLive⟩ := applies_iff.mp applies
  simp [moveOutputs, different, Ne.symm different, lt_size_of_live oldLive,
    lt_size_of_live newLive]

/-- Outputs are moved one by one while the old node has uses left to lose and
the new one has room for them. -/
theorem foldlM_moveOutputCounted {substitution : Substitution}
    (applies : aig.applies substitution = true) {outputs : List Edge}
    (recorded : outputs.countP (·.node = substitution.old) ≤ aig.outputRefs substitution.old)
    (room : aig.outputRefs substitution.new.node + outputs.countP (·.node = substitution.old) <
      Counter.limit) :
    outputs.foldlM (moveOutputCounted substitution) aig =
      .ok (aig.moveOutputs substitution (outputs.countP (·.node = substitution.old))) := by
  have different := (applies_iff.mp applies).1
  induction outputs generalizing aig with
  | nil =>
      rw [List.countP_nil, moveOutputs_zero]
      rfl
  | cons output outputs induction =>
      rw [List.foldlM_cons]
      rw [List.countP_cons] at recorded room ⊢
      by_cases own : output.node = substitution.old
      · simp only [own, decide_true, if_true] at recorded room ⊢
        have step : moveOutputCounted substitution aig output =
            .ok (aig.moveOutputs substitution 1) := by
          rw [moveOutputCounted, if_pos own, Counter.requireUse_of_lt (by omega),
            Counter.requireRoom_of_lt (by omega)]
          rfl
        rw [step, Nat.add_comm _ 1, ← moveOutputs_moveOutputs different]
        obtain ⟨oldRefs, newRefs⟩ := outputRefs_moveOutputs applies 1
        have moved : (aig.moveOutputs substitution 1).applies substitution = true := by
          rw [applies_moveOutputs]
          exact applies
        exact induction moved (by omega) (by omega)
      · simp only [own, decide_false, Bool.false_eq_true, if_false, Nat.add_zero]
          at recorded room ⊢
        have step : moveOutputCounted substitution aig output = .ok aig := if_neg own
        rw [step]
        exact induction applies recorded room

theorem redirectOutputsCounted_eq {substitution : Substitution}
    (bookkeeping : aig.Bookkeeping) (applies : aig.applies substitution = true)
    (few : aig.outputs.size < Counter.limit) :
    aig.redirectOutputsCounted substitution = .ok (aig.redirectOutputs substitution) := by
  have count : aig.outputs.toList.countP (·.node = substitution.old) =
      aig.outputs.countP (·.node = substitution.old) := Array.countP_toList
  have recorded : aig.outputs.countP (·.node = substitution.old) =
      aig.outputRefs substitution.old := (bookkeeping.refs substitution.old).symm
  have room := (bookkeeping_redirectOutputs bookkeeping applies).outputRefs_le
    substitution.new.node
  rw [outputRefs_redirectOutputs aig applies, if_pos rfl, outputs_redirectOutputs,
    Array.size_map] at room
  rw [redirectOutputsCounted, foldlM_moveOutputCounted applies (by omega) (by omega), count]
  rfl

theorem replaceUsesCounted_eq {substitution : Substitution}
    (bookkeeping : aig.Bookkeeping) (applies : aig.applies substitution = true)
    (few : aig.outputs.size < Counter.limit) :
    aig.replaceUsesCounted substitution = .ok (aig.replaceUses substitution) := by
  rw [replaceUsesCounted, redirectOutputsCounted_eq bookkeeping applies few]
  rfl

/-- Moving outputs in words is moving them without a bound if there are fewer
than 2^32: no node has more of them at any time. -/
theorem substituteAllCounted_eq (bookkeeping : aig.Bookkeeping)
    (few : aig.outputs.size < Counter.limit) (fuel : Nat) (pending : List Substitution) :
    aig.substituteAllCounted fuel pending = aig.substituteAll fuel pending := by
  induction fuel generalizing aig pending with
  | zero => cases pending <;> rfl
  | succ fuel induction =>
      cases pending with
      | nil => rfl
      | cons substitution pending =>
          rw [substituteAllCounted, substituteAll]
          by_cases applies : aig.applies substitution = true
          · have size : (aig.replaceUses substitution).aig.outputs.size = aig.outputs.size := by
              rw [replaceUses_eq, outputs_reclaim, outputs_redirected applies, Array.size_map]
            rw [if_pos applies, if_pos applies, replaceUsesCounted_eq bookkeeping applies few]
            simp only [bind, Except.bind]
            rw [induction (replaceUses_bookkeeping bookkeeping applies) (size ▸ few)]
          · rw [if_neg applies, if_neg applies]
            exact induction bookkeeping few pending

theorem Reachable.substituteCounted_eq (reachable : aig.Reachable)
    (few : aig.outputs.size < Counter.limit) (fuel old : Nat) (new : Edge) :
    aig.substituteCounted fuel old new = aig.substitute fuel old new :=
  substituteAllCounted_eq reachable.bookkeeping few fuel _

end Aig

end AndInverter
