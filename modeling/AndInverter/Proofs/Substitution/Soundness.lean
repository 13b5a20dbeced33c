import AndInverter.Proofs.Aig.Sessions

/-!
# Soundness of substitution

A valuation that satisfies a store, and gives a node and the edge that is to
take its place one value, satisfies the store after the substitution too, and
gives every output its former value.  No order of fanouts and no absence of
cycles is needed: each gate that is queued has the value of its replacement
when it is queued, and values never change.
-/

namespace AndInverter

namespace Fanins

variable {valuation : Nat → Bool}

@[simp] theorem value_ordered (left right : Edge) :
    (ordered left right).value valuation = (left.value valuation && right.value valuation) := by
  unfold ordered
  split
  · exact Bool.and_comm ..
  · rfl

theorem value_of_trivial? {fanins : Fanins} {edge : Edge} (constant : valuation 0 = false)
    (reduced : fanins.trivial? = some edge) :
    edge.value valuation = fanins.value valuation := by
  obtain ⟨⟨node, complement⟩, ⟨node', complement'⟩⟩ := fanins
  unfold trivial? at reduced
  split at reduced
  · rename_i contradictory
    cases reduced
    simp only [Edge.isComplementOf, Edge.isFalse, Bool.or_eq_true, Bool.and_eq_true,
      beq_iff_eq, Bool.not_eq_true'] at contradictory
    rcases contradictory with ⟨rfl, opposite⟩ | ⟨rfl, plain⟩
    · cases read : valuation node <;> cases complement <;> cases complement' <;>
        simp_all [value, Edge.value, Edge.constant]
    · simp [value, Edge.value, Edge.constant, constant, plain]
  · split at reduced
    · rename_i absorbed
      cases reduced
      simp only [Edge.isTrue, Edge.mk.injEq, Bool.or_eq_true, decide_eq_true_eq,
        Bool.and_eq_true, beq_iff_eq] at absorbed
      rcases absorbed with ⟨rfl, rfl⟩ | ⟨rfl, negated⟩
      · simp [value]
      · simp [value, Edge.value, constant, negated]
    · cases reduced

theorem value_of_replace? {before after : Fanins} {substitution : Substitution}
    (agree : valuation substitution.old = substitution.new.value valuation)
    (replaced : before.replace? substitution = some after) :
    after.value valuation = before.value valuation := by
  obtain ⟨kept, read, readsOld, sides, rfl⟩ := replace?_cases replaced
  have same : (substitution.new.complementIf read.complement).value valuation =
      read.value valuation := by
    rw [Edge.value_complementIf, ← agree, ← readsOld, Edge.value]
  rw [value_ordered, same]
  rcases sides with ⟨rfl, rfl⟩ | ⟨rfl, rfl⟩
  · exact Bool.and_comm ..
  · rfl

end Fanins

namespace Aig

variable {valuation : Nat → Bool}

/-- A substitution by an edge of the same value. -/
def Agrees (valuation : Nat → Bool) (substitution : Substitution) : Prop :=
  valuation substitution.old = substitution.new.value valuation

instance (aig : Aig) (valuation : Nat → Bool) : Decidable (aig.Satisfies valuation) :=
  decidable_of_iff
    (valuation 0 = false ∧ ∀ id ∈ List.range aig.size, ∀ fanins ∈ aig.gateFanins? id,
      valuation id = fanins.value valuation)
    ⟨fun ⟨constant, gate⟩ => ⟨constant, fun id fanins stored =>
        gate id (List.mem_range.mpr (lt_size_of_gateFanins? stored)) fanins stored⟩,
      fun satisfies => ⟨satisfies.constant, fun id _ fanins stored =>
        satisfies.gate id fanins stored⟩⟩

theorem value_redirect {substitution : Substitution} (agrees : Agrees valuation substitution)
    (output : Edge) : (redirect substitution output).value valuation = output.value valuation := by
  unfold redirect
  split
  · rename_i reads
    rw [Edge.value_complementIf, ← agrees, ← reads, Edge.value]
  · rfl

theorem values_redirectOutputs {aig : Aig} {substitution : Substitution}
    (agrees : Agrees valuation substitution) :
    (aig.redirectOutputs substitution).outputs.map (·.value valuation) =
      aig.outputs.map (·.value valuation) := by
  rw [outputs_redirectOutputs, Array.map_map]
  exact Array.map_congr_left fun output _ => value_redirect agrees output

theorem Satisfies.of_gateFanins? {aig next : Aig} (satisfies : aig.Satisfies valuation)
    (former : ∀ id fanins, next.gateFanins? id = some fanins →
      aig.gateFanins? id = some fanins) : next.Satisfies valuation :=
  ⟨satisfies.constant, fun id fanins stored => satisfies.gate id fanins (former id fanins stored)⟩

theorem agrees_of_merged? {aig : Aig} {gate : Nat} {before after : Fanins} {edge : Edge}
    {substitution : Substitution} (references : aig.References)
    (satisfies : aig.Satisfies valuation) (agrees : Agrees valuation substitution)
    (stored : aig.gateFanins? gate = some before)
    (replaced : before.replace? substitution = some after)
    (merged : aig.merged? substitution.old after = some edge) :
    Agrees valuation { old := gate, new := edge } := by
  have own : valuation gate = after.value valuation := by
    rw [satisfies.gate gate before stored, Fanins.value_of_replace? agrees replaced]
  rcases merged?_eq_some_iff.mp merged with reduced | ⟨_, other, found, _, rfl⟩
  · exact own.trans (Fanins.value_of_trivial? satisfies.constant reduced).symm
  · have twin := satisfies.gate other after (references.table_sound after other found)
    rw [Agrees, own, ← twin]
    simp [Edge.value, Edge.plain]

theorem satisfies_setFanins {aig : Aig} {gate : Nat} {before after : Fanins}
    {substitution : Substitution} (satisfies : aig.Satisfies valuation)
    (agrees : Agrees valuation substitution) (stored : aig.gateFanins? gate = some before)
    (replaced : before.replace? substitution = some after) :
    (aig.setFanins gate before after substitution).Satisfies valuation := by
  refine ⟨satisfies.constant, fun id fanins present => ?_⟩
  rw [gateFanins?_setFanins after substitution stored] at present
  split at present
  · rename_i own
    cases present
    rw [← own, satisfies.gate gate before stored, Fanins.value_of_replace? agrees replaced]
  · exact satisfies.gate id fanins present

theorem satisfies_removeGate {aig : Aig} (satisfies : aig.Satisfies valuation) (id : Nat)
    (fanins : Fanins) : (aig.removeGate id fanins).Satisfies valuation := by
  apply satisfies.of_gateFanins?
  intro other pair present
  rw [gateFanins?_removeGate] at present
  split at present
  · cases present
  · exact present

/-- What one step of the worklist keeps: the store satisfied, the outputs'
values, and the agreement of what was queued. -/
theorem satisfies_redirected {aig : Aig} {substitution : Substitution}
    (bookkeeping : aig.Bookkeeping) (applies : aig.applies substitution = true)
    (satisfies : aig.Satisfies valuation) (agrees : Agrees valuation substitution) :
    (aig.redirected substitution).Satisfies valuation ∧
      (aig.redirected substitution).outputs.map (·.value valuation) =
        aig.outputs.map (·.value valuation) ∧
      ∀ queued ∈ aig.queued substitution, Agrees valuation queued := by
  refine (redirected_keep (fun store instead => store.Bookkeeping ∧
    store.Satisfies valuation ∧
    store.outputs.map (·.value valuation) = aig.outputs.map (·.value valuation) ∧
    ∀ queued ∈ instead, Agrees valuation queued) ?_ ?_ applies ?_).2
  · rintro store instead gate before after edge applies stored replaced merged
      ⟨books, satisfied, values, agreed⟩
    refine ⟨books, satisfied, values, ?_⟩
    intro queued member
    rcases List.mem_cons.mp member with rfl | earlier
    · exact agrees_of_merged? books.toReferences satisfied agrees stored replaced merged
    · exact agreed queued earlier
  · rintro store instead gate before after applies stored replaced unmerged
      ⟨books, satisfied, values, agreed⟩
    refine ⟨bookkeeping_setFanins books applies stored replaced unmerged,
      satisfies_setFanins satisfied agrees stored replaced, ?_, agreed⟩
    rw [outputs_setFanins]
    exact values
  · refine ⟨bookkeeping_redirectOutputs bookkeeping applies, ?_,
      values_redirectOutputs agrees, by simp⟩
    apply satisfies.of_gateFanins?
    intro id fanins stored
    rwa [gateFanins?_redirectOutputs] at stored

theorem satisfies_reclaim {aig : Aig} (satisfies : aig.Satisfies valuation)
    (stack : List Nat) : (aig.reclaim stack).1.Satisfies valuation := by
  apply reclaim_keep (fun store => store.Satisfies valuation)
  · intro store id fanins _ satisfied
    exact satisfies_removeGate satisfied id fanins
  · exact satisfies

/-- A run of the worklist by edges of the same values is sound. -/
theorem Drains.sound {aig next : Aig} {pending : List Substitution} {changes : List Change}
    (drains : Drains aig pending next changes) (bookkeeping : aig.Bookkeeping)
    (satisfies : aig.Satisfies valuation)
    (agrees : ∀ substitution ∈ pending, Agrees valuation substitution) :
    next.Satisfies valuation ∧
      next.outputs.map (·.value valuation) = aig.outputs.map (·.value valuation) := by
  induction drains with
  | done aig => exact ⟨satisfies, rfl⟩
  | skip _ _ induction =>
      exact induction bookkeeping satisfies fun substitution member =>
        agrees substitution (List.mem_cons_of_mem _ member)
  | @perform aig next substitution pending later applies _ induction =>
      obtain ⟨satisfied, values, agreed⟩ := satisfies_redirected bookkeeping applies satisfies
        (agrees substitution List.mem_cons_self)
      have reclaimed := satisfies_reclaim satisfied [substitution.old]
      have books := replaceUses_bookkeeping bookkeeping applies
      rw [replaceUses_eq] at induction books
      obtain ⟨final, finalValues⟩ := induction books reclaimed (by
        intro queued member
        rcases List.mem_append.mp member with fresh | earlier
        · exact agreed queued fresh
        · exact agrees queued (List.mem_cons_of_mem _ earlier))
      refine ⟨final, finalValues.trans ?_⟩
      rw [outputs_reclaim]
      exact values

/-- Substituting a node by an edge of the same value is sound: the valuation
still satisfies every gate, and the outputs keep their number and, by
position, their values. -/
theorem substitute_sound {fuel : Nat} {aig next : Aig} {old : Nat} {new : Edge}
    {changes : List Change} (reachable : aig.Reachable)
    (substituted : aig.substitute fuel old new = .ok (next, changes))
    (satisfies : aig.Satisfies valuation) (agree : valuation old = new.value valuation) :
    next.Satisfies valuation ∧ next.outputs.size = aig.outputs.size ∧
      ∀ (index : Nat) (output : Edge), aig.outputs[index]? = some output →
        ∃ output' : Edge, next.outputs[index]? = some output' ∧
          output'.value valuation = output.value valuation := by
  have agrees : ∀ substitution ∈ [({ old := old, new := new } : Substitution)],
      Agrees valuation substitution := by
    intro substitution member
    rw [List.mem_singleton.mp member]
    exact agree
  obtain ⟨satisfied, values⟩ :=
    (substitute_drains substituted).sound reachable.bookkeeping satisfies agrees
  have sizes := congrArg Array.size values
  rw [Array.size_map, Array.size_map] at sizes
  refine ⟨satisfied, sizes, fun index output present => ?_⟩
  have same := congrArg (·[index]?) values
  simp only [Array.getElem?_map, present, Option.map_some] at same
  obtain ⟨output', present', value⟩ := Option.map_eq_some_iff.mp same
  exact ⟨output', present', value⟩

theorem substitute_sound_merging : ∃ aig next changes,
    Aig.Reachable aig ∧ aig.substitute 10 3 (.plain 1) = .ok (next, changes) ∧
      Substituted changes 5 ∧ next.Satisfies (· != 0) ∧
      next.outputs.size = aig.outputs.size ∧
      ∀ (index : Nat) (output : Edge), aig.outputs[index]? = some output →
        ∃ output' : Edge, next.outputs[index]? = some output' ∧
          output'.value (· != 0) = output.value (· != 0) := by
  have checked : (do
      let ended ← Aig.empty.session [.addInput, .addInput, .addInput,
        .createAnd (.plain 1) (.plain 2), .createAnd (.plain 3) (.plain 2),
        .createAnd (.plain 5) (.plain 3), .addOutput (Edge.plain 4).not,
        .addOutput (.plain 6)]
      let replaced ← ended.1.substitute 10 3 (.plain 1)
      return replaced.2.contains (.substituting 5 (.plain 4)) &&
        decide (ended.1.Satisfies (· != 0))) = .ok true := by
    decide +kernel
  obtain ⟨⟨aig, log⟩, ended, rest⟩ := bind_eq_ok.mp checked
  obtain ⟨⟨next, changes⟩, substituted, results⟩ := bind_eq_ok.mp rest
  simp only [pure_eq_ok, Bool.and_eq_true, List.contains_iff_mem, decide_eq_true_eq] at results
  obtain ⟨merged, satisfies⟩ := results
  have reachable : aig.Reachable := evolves_of_session ended
  obtain ⟨satisfied, size, values⟩ := substitute_sound reachable substituted satisfies rfl
  exact ⟨aig, next, changes, reachable, substituted, ⟨_, merged⟩, satisfied, size, values⟩

end Aig

end AndInverter
