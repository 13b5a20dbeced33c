import AndInverter.Proofs.Aig.Integrity
import AndInverter.Proofs.Aig.Sessions

/-!
# The structural table

Only a redirected fanin can take an entry of the table from another gate, and
only from the gate whose uses are being redirected.  So the table misses no
gate but those that were substituted and stayed.
-/

namespace AndInverter

namespace Aig

/-- The table leads back to every gate, apart from the given nodes. -/
def HashedExcept (aig : Aig) (excepted : Nat → Prop) : Prop :=
  ∀ gate fanins, ¬ excepted gate → aig.gateFanins? gate = some fanins →
    aig.table[fanins]? = some gate

/-- No two gates have the same fanins, the table leads back to every gate, and
no check finds a gate missing there. -/
structure UniquelyHashed (aig : Aig) : Prop where
  unique : ∀ first second fanins, aig.gateFanins? first = some fanins →
    aig.gateFanins? second = some fanins → first = second
  hashed : aig.Hashed
  spared : ∀ gate, aig.checkIntegrity ≠ .error (.fault (.unhashedGate gate))

theorem Hashed.uniquelyHashed {aig : Aig} (hashed : aig.Hashed) : aig.UniquelyHashed := by
  constructor
  · intro first second fanins left right
    exact hashed.injective left right
  · exact hashed
  · intro gate
    exact hashed.spares_checkIntegrity gate

variable {olds : Nat → Prop}

theorem hashedExcept_addGate {aig : Aig} {added : Fanins}
    (absent : aig.table[added]? = none) (hashed : aig.HashedExcept olds) :
    (aig.addGate added).2.HashedExcept olds := by
  intro gate fanins kept stored
  rw [gateFanins?_addGate] at stored
  rw [getElem?_addGate]
  split at stored
  · rename_i new
    cases stored
    rw [if_pos rfl, new]
  · have found := hashed gate fanins kept stored
    rw [if_neg, found]
    rintro rfl
    rw [absent] at found
    cases found

/-- A redirected fanin takes the entry of the substituted node at most. -/
theorem hashedExcept_setFanins {aig : Aig} {rewired : Nat} {before after : Fanins}
    {substitution : Substitution} (listed : olds substitution.old)
    (stored : aig.gateFanins? rewired = some before)
    (unmerged : aig.merged? substitution.old after = none)
    (hashed : aig.HashedExcept olds) :
    (aig.setFanins rewired before after substitution).HashedExcept olds := by
  intro gate fanins kept present
  rw [gateFanins?_setFanins after substitution stored] at present
  rw [getElem?_setFanins]
  split at present
  · rename_i own
    cases present
    rw [if_pos rfl, own]
  · rename_i other
    have found := hashed gate fanins kept present
    rw [if_neg, if_neg, found]
    · rintro ⟨rfl, entry⟩
      rw [found] at entry
      exact other (Option.some.inj entry).symm
    · rintro rfl
      have displaced : gate = substitution.old := (merged?_eq_none_iff.mp unmerged).2 gate found
      exact kept (displaced ▸ listed)

theorem hashedExcept_removeGate {aig : Aig} {id : Nat} {removed : Fanins}
    (hashed : aig.HashedExcept olds) : (aig.removeGate id removed).HashedExcept olds := by
  intro gate fanins kept present
  rw [gateFanins?_removeGate] at present
  split at present
  · cases present
  · rename_i other
    have found := hashed gate fanins kept present
    rw [getElem?_removeGate, if_neg, found]
    rintro ⟨rfl, entry⟩
    rw [found] at entry
    exact other (Option.some.inj entry).symm

theorem Edit.hashedExcept {aig next : Aig} (edit : Edit olds aig next)
    (hashed : aig.HashedExcept olds) : next.HashedExcept olds := by
  cases edit with
  | addInput =>
      intro gate fanins kept stored
      rw [gateFanins?_addInput] at stored
      exact hashed gate fanins kept stored
  | addOutput live =>
      intro gate fanins kept stored
      rw [gateFanins?_appendOutput] at stored
      exact hashed gate fanins kept stored
  | addGate _ _ _ absent => exact hashedExcept_addGate absent hashed
  | redirect _ _ =>
      intro gate fanins kept stored
      rw [gateFanins?_redirectOutputs] at stored
      exact hashed gate fanins kept stored
  | rewire listed _ stored _ unmerged =>
      exact hashedExcept_setFanins listed stored unmerged hashed
  | remove _ => exact hashedExcept_removeGate hashed

theorem Edits.hashedExcept {aig next : Aig} (edits : Edits olds aig next)
    (hashed : aig.HashedExcept olds) : next.HashedExcept olds :=
  edits.keep (fun store => store.HashedExcept olds) (fun edit => edit.hashedExcept) hashed

theorem hashedExcept_empty : Aig.empty.HashedExcept olds := by
  intro gate fanins _ stored
  cases gate with
  | zero => cases stored
  | succ gate =>
      rw [gateFanins?_eq_none_of_size_le (Nat.le_add_left 1 gate)] at stored
      cases stored

/-- After any session, the gates that were not substituted are found through
their fanins.  So all gates are found, and no two of them have the same
fanins, exactly if the substituted gates that have stayed are found. -/
theorem uniquelyHashed_iff {operations : List Operation} {aig : Aig} {changes : List Change}
    (ended : Aig.empty.session operations = .ok (aig, changes)) :
    aig.HashedExcept (Substituted changes) ∧
      (aig.UniquelyHashed ↔
        ∀ old fanins, Substituted changes old → aig.gateFanins? old = some fanins →
          aig.table[fanins]? = some old) := by
  have others : aig.HashedExcept (Substituted changes) :=
    (session_edits ended).hashedExcept hashedExcept_empty
  constructor
  · exact others
  · constructor
    · intro hashed old fanins _ stored
      exact hashed.hashed old fanins stored
    · intro stayed
      apply Hashed.uniquelyHashed
      intro gate fanins stored
      by_cases substituted : Substituted changes gate
      · exact stayed gate fanins substituted stored
      · exact others gate fanins substituted stored

/-- A substitution that makes one gate equal to another, which is substituted
in turn. -/
def mergingSession : List Operation :=
  [.addInput, .addInput, .addInput,
    .createAnd (.plain 1) (.plain 2), .createAnd (.plain 3) (.plain 2),
    .createAnd (.plain 5) (.plain 3), .addOutput (.plain 4), .addOutput (.plain 6),
    .substitute 10 3 (.plain 1)]

theorem uniquelyHashed_merging : ∃ aig changes,
    Aig.empty.session mergingSession = .ok (aig, changes) ∧ Substituted changes 5 ∧
      aig.UniquelyHashed := by
  have checked : (do
      let ended ← Aig.empty.session mergingSession
      return ended.2.contains (.substituting 5 (.plain 4)) && ended.2.all fun change =>
        change.redirected?.all fun old => (ended.1.gateFanins? old).isNone) = .ok true := by
    decide +kernel
  obtain ⟨⟨aig, changes⟩, ended, results⟩ := bind_eq_ok.mp checked
  simp only [pure_eq_ok, Bool.and_eq_true, List.all_eq_true, List.contains_iff_mem] at results
  obtain ⟨merged, gone⟩ := results
  refine ⟨aig, changes, ended, ⟨_, merged⟩, (uniquelyHashed_iff ended).2.mpr ?_⟩
  rintro old fanins ⟨new, member⟩ stored
  have absent : (aig.gateFanins? old).isNone = true := gone _ member
  rw [stored] at absent
  cases absent

/-- Two substitutions, each by an edge that does not depend on the substituted
node.  In the second one, a gate that reads gate 4 takes its entry of the
table, and another one waits for a replacement that is dead when its turn
comes, so that gate 4 stays. -/
def displacingSession : List Operation :=
  [.addInput, .addInput, .addInput,
    .createAnd (.plain 1) (.plain 2), .createAnd (.plain 4) (.plain 2),
    .createAnd (.plain 3) (.plain 1), .createAnd (.plain 1) (Edge.plain 6).not,
    .createAnd (.plain 4) (Edge.plain 6).not, .addOutput (.plain 5), .addOutput (.plain 8),
    .substitute 10 3 (.plain 4), .substitute 10 4 (.plain 1)]

/-- Substitutions that close no cycle can leave two gates with one pair of
fanins. -/
theorem not_uniquelyHashed : ∃ aig : Aig, aig.SafelyReachable ∧ ¬ aig.UniquelyHashed := by
  have checked : (do
      let ended ← Aig.empty.session displacingSession
      return Aig.empty.isSafeSession displacingSession && ended.1.isGate 4 &&
        decide (ended.1.gateFanins? 4 = ended.1.gateFanins? 5)) = .ok true := by
    decide +kernel
  obtain ⟨⟨aig, changes⟩, ended, results⟩ := bind_eq_ok.mp checked
  simp only [pure_eq_ok, Bool.and_eq_true, decide_eq_true_eq] at results
  obtain ⟨⟨safe, isGate⟩, same⟩ := results
  obtain ⟨fanins, stored⟩ := isGate_iff.mp isGate
  refine ⟨aig, safeSteps_of_session ended safe, fun hashed => ?_⟩
  have equal := hashed.unique 4 5 fanins stored (same ▸ stored)
  cases equal

end Aig

end AndInverter
