import AndInverter.Proofs.Aig.Sessions
import AndInverter.Proofs.Substitution.Uses

/-!
# When a substitution replaces its node

A gate that is queued waits for its turn with a replacement chosen at once.
Its turn may come too late: the replacement may be dead by then, and the gate
stays as it is; or it may be a node that was substituted itself, and gains
uses again.  If neither happens, every substituted node loses all its uses,
and the gates among them are reclaimed.
-/

namespace AndInverter

namespace Aig

/-- Nothing refers to a node any more, and if it was a gate it is gone. -/
structure Superseded (aig next : Aig) (old : Nat) : Prop where
  outputs : ∀ output ∈ next.outputs, output.node ≠ old
  gates : ∀ gate, ¬ next.GateReads gate old
  reclaimed : aig.isGate old = true → next.isDead old = true

/-- Whether each pending substitution comes to its end: one that is skipped
has a node that is dead already, and one that is performed leads to a node
that was not substituted before. -/
def settles (aig : Aig) : (fuel : Nat) → (retired : List Nat) → List Substitution → Bool
  | _, _, [] => true
  | 0, _, _ :: _ => false
  | fuel + 1, retired, substitution :: pending =>
    if aig.applies substitution then
      !retired.contains substitution.new.node &&
        (aig.replaceUses substitution).aig.settles fuel (substitution.old :: retired)
          ((aig.replaceUses substitution).instead ++ pending)
    else
      aig.isDead substitution.old && aig.settles fuel retired pending

/-- Between two steps of the worklist: `retired` holds the nodes substituted
so far, the latest one first.  No output reads them, and whatever gate reads
one of them was substituted later or is about to be. -/
structure Underway (aig : Aig) (retired : List Nat) (pending : List Substitution) : Prop where
  bookkeeping : aig.Bookkeeping
  outputs : ∀ output ∈ aig.outputs, output.node ∉ retired
  readers : ∀ later id earlier gate, retired = later ++ id :: earlier →
    aig.GateReads gate id → gate ∈ later ∨ ∃ waiting ∈ pending, waiting.old = gate
  reclaimed : ∀ id ∈ retired, aig.dangling? id = none

theorem not_gateReads_of_isDead {aig : Aig} {gate : Nat} (dead : aig.isDead gate = true)
    (id : Nat) : ¬ aig.GateReads gate id := by
  intro reads
  obtain ⟨fanins, stored, _⟩ := reads
  rw [isDead_of_gateFanins? stored] at dead
  cases dead

theorem Underway.skip {aig : Aig} {retired : List Nat} {substitution : Substitution}
    {pending : List Substitution}
    (underway : aig.Underway retired (substitution :: pending))
    (dead : aig.isDead substitution.old = true) : aig.Underway retired pending := by
  refine { underway with readers := ?_ }
  intro later id earlier gate split reads
  rcases underway.readers later id earlier gate split reads with
    substituted | ⟨waiting, member, own⟩
  · exact .inl substituted
  · rcases List.mem_cons.mp member with rfl | still
    · exact absurd reads (own ▸ not_gateReads_of_isDead dead id)
    · exact .inr ⟨waiting, still, own⟩

theorem gateReads_of_reclaim {aig : Aig} {stack : List Nat} {gate id : Nat}
    (reads : (aig.reclaim stack).1.GateReads gate id) : aig.GateReads gate id := by
  have fewer : ∀ gate id, (aig.reclaim stack).1.GateReads gate id → aig.GateReads gate id := by
    apply reclaim_keep (fun store => ∀ gate id, store.GateReads gate id → aig.GateReads gate id)
    · intro store removed fanins _ former gate id reads
      exact former gate id ((gateReads_removeGate fanins gate id).mp reads).2
    · intro gate id reads
      exact reads
  exact fewer gate id reads

theorem Underway.perform {aig : Aig} {retired : List Nat} {substitution : Substitution}
    {pending : List Substitution}
    (underway : aig.Underway retired (substitution :: pending))
    (applies : aig.applies substitution = true)
    (fresh : substitution.new.node ∉ retired) :
    (aig.replaceUses substitution).aig.Underway (substitution.old :: retired)
      ((aig.replaceUses substitution).instead ++ pending) := by
  have different := (applies_iff.mp applies).1
  have redirects := redirected_redirects underway.bookkeeping applies
  constructor
  · exact replaceUses_bookkeeping underway.bookkeeping applies
  · intro output member retiredOutput
    rw [replaceUses_eq, outputs_reclaim] at member
    have read := (exists_output_redirected_iff applies).mp ⟨output, member, rfl⟩
    rcases read with ⟨notOld, former, present, same⟩ | ⟨isNew, _⟩
    · have still := (List.mem_cons.mp retiredOutput).resolve_left notOld
      exact underway.outputs former present (same ▸ still)
    · rw [isNew] at retiredOutput
      exact fresh ((List.mem_cons.mp retiredOutput).resolve_left different)
  · intro later id earlier gate split reads
    have reads := gateReads_of_reclaim reads
    cases later with
    | nil =>
        obtain ⟨rfl, _⟩ := List.cons.inj split
        obtain ⟨waiting, member, own⟩ :=
          exists_queued_of_gateReads underway.bookkeeping applies reads
        exact .inr ⟨waiting, List.mem_append_left _ member, own⟩
    | cons latest later =>
        obtain ⟨rfl, splitRest⟩ := List.cons.inj split
        have isRetired : id ∈ retired := by
          rw [splitRest]
          exact List.mem_append_right _ List.mem_cons_self
        have notNew : id ≠ substitution.new.node := fun same => fresh (same ▸ isRetired)
        have former := redirects.gained gate id notNew reads
        rcases underway.readers later id earlier gate splitRest former with
          substituted | ⟨waiting, member, own⟩
        · exact .inl (List.mem_cons_of_mem _ substituted)
        · rcases List.mem_cons.mp member with rfl | still
          · exact .inl (own ▸ List.mem_cons_self)
          · exact .inr ⟨waiting, List.mem_append_right _ still, own⟩
  · intro id member
    apply Option.not_isSome_iff_eq_none.mp
    intro dangling
    obtain ⟨former, notOld⟩ := dangling?_of_replaceUses underway.bookkeeping applies dangling
    have still := (List.mem_cons.mp member).resolve_left notOld
    rw [underway.reclaimed id still] at former
    cases former

theorem underway_of_settles {fuel : Nat} {aig next : Aig} {retired : List Nat}
    {pending : List Substitution} {changes : List Change}
    (ended : aig.substituteAll fuel pending = .ok (next, changes))
    (settles : aig.settles fuel retired pending = true)
    (underway : aig.Underway retired pending) :
    ∃ later, next.Underway (later ++ retired) [] := by
  induction fuel generalizing aig retired pending changes with
  | zero =>
      cases pending with
      | nil =>
          cases ended
          exact ⟨[], underway⟩
      | cons substitution pending => cases ended
  | succ fuel induction =>
      cases pending with
      | nil =>
          cases ended
          exact ⟨[], underway⟩
      | cons substitution pending =>
          rw [substituteAll] at ended
          rw [Aig.settles] at settles
          split at ended
          · rename_i applies
            rw [if_pos applies, Bool.and_eq_true] at settles
            obtain ⟨fresh, settles⟩ := settles
            obtain ⟨⟨store, rest⟩, continued, result⟩ := bind_eq_ok.mp ended
            cases result
            obtain ⟨later, last⟩ := induction continued settles
              (underway.perform applies (by simpa using fresh))
            refine ⟨later ++ [substitution.old], ?_⟩
            rwa [List.append_assoc]
          · rename_i idle
            rw [if_neg idle, Bool.and_eq_true] at settles
            exact induction ended settles.2 (underway.skip settles.1)

/-- With nothing left to do, no retired node is a gate, and no gate reads
one: a reader was itself retired later, and is no gate any more. -/
theorem Underway.not_isGate {aig : Aig} {retired : List Nat}
    (underway : aig.Underway retired []) {later earlier : List Nat} {id : Nat}
    (split : retired = later ++ id :: earlier) :
    aig.isGate id = false ∧ ∀ gate, ¬ aig.GateReads gate id := by
  induction size : later.length using Nat.strongRecOn generalizing later earlier id with
  | ind size' induction =>
      have unread : ∀ gate, ¬ aig.GateReads gate id := by
        intro gate reads
        rcases underway.readers later id earlier gate split reads with
          substituted | ⟨_, member, _⟩
        · obtain ⟨last, first, laterSplit⟩ := List.append_of_mem substituted
          have shorter : last.length < size' := by
            rw [← size, laterSplit, List.length_append, List.length_cons]
            omega
          have splitHere : retired = last ++ gate :: (first ++ id :: earlier) := by
            rw [split, laterSplit, List.append_assoc, List.cons_append]
          obtain ⟨noGate, _⟩ := induction last.length shorter splitHere rfl
          obtain ⟨fanins, stored, _⟩ := reads
          rw [isGate, stored] at noGate
          cases noGate
        · cases member
      refine ⟨?_, unread⟩
      have member : id ∈ retired := by
        rw [split]
        exact List.mem_append_right _ List.mem_cons_self
      rw [← Bool.not_eq_true]
      intro isGate
      have unused : ¬ aig.Used id := by
        intro used
        rcases used with ⟨gate, reads⟩ | ⟨output, present, same⟩
        · exact unread gate reads
        · exact underway.outputs output present (same ▸ member)
      have dangling := (dangling?_isSome_iff underway.bookkeeping).mpr ⟨unused, isGate⟩
      rw [underway.reclaimed id member] at dangling
      cases dangling

theorem Drains.not_dangling {aig next : Aig} {substitution : Substitution}
    {changes : List Change} (drains : Drains aig [substitution] next changes)
    (bookkeeping : aig.Bookkeeping) (applies : aig.applies substitution = true) :
    ¬ (next.dangling? substitution.old).isSome = true := by
  intro dangling
  cases drains with
  | skip idle _ =>
      rw [applies] at idle
      cases idle
  | perform _ rest =>
      have first := rest.dangling (replaceUses_bookkeeping bookkeeping applies) dangling
      exact (dangling?_of_replaceUses bookkeeping applies first).2 rfl

/-- A node without uses has been superseded: if it was a gate, it would
dangle. -/
theorem Drains.superseded_iff {aig next : Aig} {substitution : Substitution}
    {changes : List Change} (drains : Drains aig [substitution] next changes)
    (bookkeeping : aig.Bookkeeping) (ports : aig.Ports)
    (applies : aig.applies substitution = true) :
    aig.Superseded next substitution.old ↔ ¬ next.Used substitution.old := by
  constructor
  · intro superseded used
    rcases used with ⟨gate, reads⟩ | ⟨output, member, same⟩
    · exact superseded.gates gate reads
    · exact superseded.outputs output member same
  · intro unused
    constructor
    · intro output member same
      exact unused (.inr ⟨output, member, same⟩)
    · intro gate reads
      exact unused (.inl ⟨gate, reads⟩)
    · intro isGate
      have later : next.Ports := drains.edits.ports ports
      rcases ports.isGate_or_isDead later drains.inputs isGate with still | dead
      · have books := drains.edits.bookkeeping bookkeeping
        have dangling := (dangling?_isSome_iff books).mpr ⟨unused, still⟩
        exact absurd dangling (drains.not_dangling bookkeeping applies)
      · exact dead

/-! ### Substitutions that stay away from a node -/

theorem gateReads_reclaim_iff {aig : Aig} {stack : List Nat} {gate id : Nat} :
    (aig.reclaim stack).1.GateReads gate id ↔
      aig.GateReads gate id ∧ (aig.reclaim stack).1.isDead gate = false := by
  constructor
  · intro reads
    obtain ⟨fanins, stored, _⟩ := reads
    exact ⟨gateReads_of_reclaim ⟨fanins, stored, ‹_›⟩, isDead_of_gateFanins? stored⟩
  · intro remains
    obtain ⟨reads, live⟩ := remains
    refine reclaim_keep (fun store => store.isDead gate = false → store.GateReads gate id) ?_
      (fun _ => reads) live
    intro store removed fanins dangling former live
    have apart : removed ≠ gate := by
      rintro rfl
      have inside := lt_size_of_gateFanins? (dangling?_eq_some_iff.mp dangling).2
      simp [isDead, inside] at live
    have before : store.isDead gate = false := by
      rwa [isDead, node?_removeGate, if_neg (fun both => apart both.1)] at live
    exact (gateReads_removeGate fanins gate id).mpr ⟨apart, former before⟩

/-- A substitution neither of a node nor by it leaves its uses alone, apart
from those by gates that die. -/
theorem replaceUses_uses_iff {aig : Aig} {substitution : Substitution}
    (bookkeeping : aig.Bookkeeping) (applies : aig.applies substitution = true) {id : Nat}
    (notOld : substitution.old ≠ id) (notNew : substitution.new.node ≠ id) :
    (∀ gate, (aig.replaceUses substitution).aig.GateReads gate id ↔
        aig.GateReads gate id ∧ (aig.replaceUses substitution).aig.isDead gate = false) ∧
      ((∃ output ∈ (aig.replaceUses substitution).aig.outputs, output.node = id) ↔
        ∃ output ∈ aig.outputs, output.node = id) := by
  have redirects := redirected_redirects bookkeeping applies
  rw [replaceUses_eq]
  constructor
  · intro gate
    rw [gateReads_reclaim_iff]
    have same : (aig.redirected substitution).GateReads gate id ↔ aig.GateReads gate id :=
      ⟨redirects.gained gate id (Ne.symm notNew), redirects.lost gate id (Ne.symm notOld)⟩
    rw [same]
  · rw [outputs_reclaim, exists_output_redirected_iff applies]
    constructor
    · intro either
      rcases either with ⟨_, output⟩ | ⟨isNew, _⟩
      · exact output
      · exact absurd isNew.symm notNew
    · intro output
      exact .inl ⟨Ne.symm notOld, output⟩

theorem Drains.uses_iff {aig next : Aig} {pending : List Substitution}
    {changes : List Change} (drains : Drains aig pending next changes)
    (bookkeeping : aig.Bookkeeping) {id : Nat}
    (away : ∀ old new, .substituting old new ∈ changes → old ≠ id ∧ new.node ≠ id) :
    (∀ gate, next.GateReads gate id ↔ aig.GateReads gate id ∧ next.isDead gate = false) ∧
      ((∃ output ∈ next.outputs, output.node = id) ↔ ∃ output ∈ aig.outputs, output.node = id) := by
  induction drains with
  | done aig =>
      refine ⟨fun gate => ⟨fun reads => ⟨reads, ?_⟩, And.left⟩, Iff.rfl⟩
      obtain ⟨fanins, stored, _⟩ := reads
      exact isDead_of_gateFanins? stored
  | skip _ _ induction => exact induction bookkeeping away
  | @perform aig next substitution pending later applies rest induction =>
      obtain ⟨notOld, notNew⟩ := away substitution.old substitution.new (by simp)
      have books := replaceUses_bookkeeping bookkeeping applies
      obtain ⟨here, outputs⟩ := replaceUses_uses_iff bookkeeping applies notOld notNew
      obtain ⟨after, outputsAfter⟩ := induction books fun old new member =>
        away old new (List.mem_append_right _ member)
      refine ⟨fun gate => ?_, outputsAfter.trans outputs⟩
      rw [after, here]
      constructor
      · intro remains
        obtain ⟨⟨reads, _⟩, live⟩ := remains
        exact ⟨reads, live⟩
      · intro remains
        obtain ⟨reads, live⟩ := remains
        obtain ⟨fanins, stored, sides⟩ := reads
        have edits : Edits (fun _ => True) aig (aig.replaceUses substitution).aig :=
          replaceUses_edits trivial applies
        have inside := Nat.lt_of_lt_of_le (lt_size_of_gateFanins? stored) edits.size_le
        exact ⟨⟨⟨fanins, stored, sides⟩, rest.edits.live_before inside live⟩, live⟩

/-- If the node plays no part in the rest of the run, it is superseded exactly
if the gates that were queued at first are dead in the end. -/
theorem superseded_iff_queued_dead {aig next : Aig} {substitution : Substitution}
    {later : List Change} (bookkeeping : aig.Bookkeeping)
    (applies : aig.applies substitution = true)
    (rest : Drains (aig.replaceUses substitution).aig
      ((aig.replaceUses substitution).instead ++ []) next later)
    (away : ∀ old new, .substituting old new ∈ later →
      old ≠ substitution.old ∧ new.node ≠ substitution.old) :
    ¬ next.Used substitution.old ↔
      ∀ entry ∈ aig.queued substitution, next.isDead entry.old = true := by
  obtain ⟨reads, outputs⟩ := rest.uses_iff (replaceUses_bookkeeping bookkeeping applies) away
  have queued := gateReads_redirected_iff bookkeeping applies
  have edits : Edits (fun _ => True) (aig.redirected substitution)
      (aig.replaceUses substitution).aig := reclaim_edits _ [substitution.old]
  rw [replaceUses_eq] at reads outputs
  constructor
  · intro unused entry member
    rw [← Bool.not_eq_false]
    intro live
    apply unused
    have present := (queued entry.old).mpr ⟨entry, member, rfl⟩
    have inside : entry.old < (aig.replaceUses substitution).aig.size := by
      obtain ⟨fanins, stored, _⟩ := present
      exact Nat.lt_of_lt_of_le (lt_size_of_gateFanins? stored) edits.size_le
    have stays := rest.edits.live_before inside live
    exact .inl ⟨entry.old, (reads _).mpr ⟨gateReads_reclaim_iff.mpr ⟨present, stays⟩, live⟩⟩
  · intro dead used
    rcases used with ⟨gate, present⟩ | output
    · obtain ⟨former, live⟩ := (reads gate).mp present
      obtain ⟨entry, member, rfl⟩ := (queued gate).mp (gateReads_of_reclaim former)
      rw [dead entry member] at live
      cases live
    · have moved := outputs.mp output
      rw [outputs_reclaim, exists_output_redirected_iff applies] at moved
      rcases moved with ⟨itself, _⟩ | ⟨isNew, _⟩
      · exact itself rfl
      · exact (applies_iff.mp applies).1 isNew.symm

/-- A substitution replaces its node exactly if the node has no use on record
afterwards.  If the node plays no part in the rest of the cascade, that is so
exactly if the gates that were queued instead of being redirected die.  And
it is always so if each entry of the worklist comes to its end. -/
theorem substitute_superseded_iff {fuel : Nat} {aig next : Aig} {old : Nat} {new : Edge}
    {changes : List Change} (reachable : aig.Reachable) (oldLive : aig.isDead old = false)
    (newLive : aig.isDead new.node = false) (different : new.node ≠ old)
    (substituted : aig.substitute fuel old new = .ok (next, changes)) :
    (aig.Superseded next old ↔ next.fanoutSize old = 0) ∧
      ((∀ node edge, .substituting node edge ∈ changes.tail → node ≠ old ∧ edge.node ≠ old) →
        (aig.Superseded next old ↔
          ∀ entry ∈ aig.queued { old := old, new := new }, next.isDead entry.old = true)) ∧
      (aig.settles fuel [] [{ old := old, new := new }] = true → aig.Superseded next old) := by
  have applies : aig.applies { old := old, new := new } = true :=
    applies_iff.mpr ⟨different, oldLive, newLive⟩
  have drains := substitute_drains substituted
  have books : next.Bookkeeping := drains.edits.bookkeeping reachable.bookkeeping
  have unused := drains.superseded_iff reachable.bookkeeping reachable.ports applies
  rw [books.fanoutSize_eq_zero_iff_not_used, unused]
  refine ⟨Iff.rfl, ?_, ?_⟩
  · intro away
    cases drains with
    | skip idle _ =>
        rw [applies] at idle
        cases idle
    | perform _ rest =>
        apply superseded_iff_queued_dead reachable.bookkeeping applies rest
        intro node edge member
        exact away node edge (List.mem_append_right _ member)
  · intro settles
    have start : aig.Underway [] [{ old := old, new := new }] := by
      refine ⟨reachable.bookkeeping, fun _ _ => List.not_mem_nil, ?_,
        fun _ member => absurd member List.not_mem_nil⟩
      intro later id earlier gate split
      simp at split
    cases fuel with
    | zero => cases settles
    | succ fuel =>
        rw [substitute, substituteAll, if_pos applies] at substituted
        rw [Aig.settles, if_pos applies, Bool.and_eq_true] at settles
        obtain ⟨⟨store, rest⟩, continued, result⟩ := bind_eq_ok.mp substituted
        cases result
        obtain ⟨later, last⟩ := underway_of_settles continued settles.2
          (start.perform applies List.not_mem_nil)
        intro used
        rcases used with ⟨gate, reads⟩ | ⟨output, member, same⟩
        · exact (last.not_isGate rfl).2 gate reads
        · exact last.outputs output member
            (same ▸ List.mem_append_right later List.mem_cons_self)

theorem superseded_merging : ∃ aig next changes,
    Aig.Reachable aig ∧ aig.isGate 6 = true ∧
      aig.substitute 10 3 (.plain 1) = .ok (next, changes) ∧
      Substituted changes 5 ∧ aig.Superseded next 3 := by
  have checked : (do
      let ended ← Aig.empty.session [.addInput, .addInput, .addInput,
        .createAnd (.plain 1) (.plain 2), .createAnd (.plain 3) (.plain 2),
        .createAnd (.plain 5) (.plain 3), .addOutput (.plain 4), .addOutput (.plain 6)]
      let replaced ← ended.1.substitute 10 3 (.plain 1)
      return ended.1.isGate 6 && !ended.1.isDead 3 && !ended.1.isDead 1 &&
        replaced.2.contains (.substituting 5 (.plain 4)) &&
        ended.1.settles 10 [] [{ old := 3, new := .plain 1 }]) = .ok true := by
    decide +kernel
  obtain ⟨⟨aig, log⟩, ended, rest⟩ := bind_eq_ok.mp checked
  obtain ⟨⟨next, changes⟩, substituted, results⟩ := bind_eq_ok.mp rest
  simp only [pure_eq_ok, Bool.and_eq_true, Bool.not_eq_true', List.contains_iff_mem] at results
  obtain ⟨⟨⟨⟨isGate, oldLive⟩, newLive⟩, merged⟩, settles⟩ := results
  have reachable : aig.Reachable := evolves_of_session ended
  have superseded := (substitute_superseded_iff reachable oldLive newLive (by decide)
    substituted).2.2 settles
  exact ⟨aig, next, changes, reachable, isGate, substituted, ⟨_, merged⟩, superseded⟩

/-- A substitution by an edge that does not depend on the substituted gate can
leave the gate in use: further up another gate comes to have its fanins, and
is substituted by it. -/
theorem not_superseded : ∃ (aig next : Aig) (fuel old : Nat) (new : Edge)
    (changes : List Change), aig.Reachable ∧ aig.isDead old = false ∧
      aig.isDead new.node = false ∧ new.node ≠ old ∧
      aig.independent { old := old, new := new } ∧
      aig.substitute fuel old new = .ok (next, changes) ∧ ¬ aig.Superseded next old := by
  have checked : (do
      let ended ← Aig.empty.session [.addInput, .addInput,
        .createAnd (.plain 2) (.plain 1), .createAnd (.plain 3) (.plain 2),
        .createAnd (.plain 4) (.plain 1), .createAnd (.plain 5) (Edge.plain 2).not,
        .addOutput (.plain 6)]
      let replaced ← ended.1.substitute 10 3 (.constant true)
      return ended.1.isGate 3 && !ended.1.isDead 3 && !ended.1.isDead 0 &&
        ended.1.isIndependent { old := 3, new := .constant true } &&
        !replaced.1.isDead 3) = .ok true := by
    decide +kernel
  obtain ⟨⟨aig, log⟩, ended, rest⟩ := bind_eq_ok.mp checked
  obtain ⟨⟨next, changes⟩, substituted, results⟩ := bind_eq_ok.mp rest
  simp only [pure_eq_ok, Bool.and_eq_true, Bool.not_eq_true'] at results
  obtain ⟨⟨⟨⟨isGate, oldLive⟩, newLive⟩, shown⟩, stays⟩ := results
  refine ⟨aig, next, 10, 3, .constant true, changes, evolves_of_session ended, oldLive,
    newLive, by decide, independent_of_isIndependent shown, substituted, ?_⟩
  intro superseded
  rw [superseded.reclaimed isGate] at stays
  cases stays

end Aig

end AndInverter
