import AndInverter.Proofs.Aig.Histories

/-!
# Uses of nodes during a substitution

Which gates and outputs read a node after one substitution.  Nothing but the
new node gains a use, nothing but the old node loses one before it is
reclaimed, and the gates that still read the old node are those that were
queued.  Reclaiming leaves no gate dangling that was not dangling before.
-/

namespace AndInverter

namespace Aig

def Used (aig : Aig) (id : Nat) : Prop :=
  (∃ gate, aig.GateReads gate id) ∨ ∃ output ∈ aig.outputs, output.node = id

theorem Bookkeeping.fanoutSize_eq_zero_iff_not_used {aig : Aig}
    (bookkeeping : aig.Bookkeeping) {id : Nat} : aig.fanoutSize id = 0 ↔ ¬ aig.Used id := by
  rw [bookkeeping.fanoutSize_eq_zero_iff, Used, not_or, not_exists]
  simp

/-- A gate that is given other fanins reads the new node in place of the old
one; nothing else changes. -/
theorem gateReads_setFanins_iff {aig : Aig} (references : aig.References) {gate : Nat}
    {before after : Fanins} {substitution : Substitution}
    (stored : aig.gateFanins? gate = some before)
    (replaced : before.replace? substitution = some after)
    (unmerged : aig.merged? substitution.old after = none) (other id : Nat) :
    (aig.setFanins gate before after substitution).GateReads other id ↔
      (aig.GateReads other id ∧ ¬ (other = gate ∧ id = substitution.old)) ∨
        (other = gate ∧ id = substitution.new.node) := by
  by_cases own : other = gate
  · subst own
    obtain ⟨kept, notOld, notNew, reads, readsAfter⟩ :=
      gateReads_setFanins references stored replaced unmerged
    rw [readsAfter, reads]
    grind
  · have same : (aig.setFanins gate before after substitution).gateFanins? other =
        aig.gateFanins? other := by
      rw [gateFanins?_setFanins after substitution stored, if_neg (Ne.symm own)]
    rw [gateReads_of_gateFanins? id same]
    simp [own]

/-! ### Redirected gates -/

/-- Only uses of the substituted node are lost, and only uses of the new one
are gained. -/
structure Redirects (substitution : Substitution) (aig store : Aig) : Prop where
  bookkeeping : store.Bookkeeping
  gates : ∀ id, store.isGate id = aig.isGate id
  gained : ∀ gate id, id ≠ substitution.new.node → store.GateReads gate id →
    aig.GateReads gate id
  lost : ∀ gate id, id ≠ substitution.old → aig.GateReads gate id → store.GateReads gate id

theorem Redirects.setFanins {aig store : Aig} {gate : Nat} {before after : Fanins}
    {substitution : Substitution} (redirects : Redirects substitution aig store)
    (applies : store.applies substitution = true)
    (stored : store.gateFanins? gate = some before)
    (replaced : before.replace? substitution = some after)
    (unmerged : store.merged? substitution.old after = none) :
    Redirects substitution aig (store.setFanins gate before after substitution) := by
  have reads := gateReads_setFanins_iff redirects.bookkeeping.toReferences stored replaced
    unmerged
  constructor
  · exact bookkeeping_setFanins redirects.bookkeeping applies stored replaced unmerged
  · intro id
    rw [← redirects.gates, isGate, gateFanins?_setFanins after substitution stored]
    split
    · rename_i own
      rw [← own, isGate, stored]
      rfl
    · rfl
  · intro other id notNew present
    rcases (reads other id).mp present with ⟨former, _⟩ | ⟨_, isNew⟩
    · exact redirects.gained other id notNew former
    · exact absurd isNew notNew
  · intro other id notOld former
    apply (reads other id).mpr
    exact .inl ⟨redirects.lost other id notOld former, fun both => notOld both.2⟩

theorem rewireAll_redirects {aig store : Aig} {substitution : Substitution}
    {gates : List Nat} {instead : List Substitution}
    (redirects : Redirects substitution aig store)
    (applies : store.applies substitution = true) :
    Redirects substitution aig (store.rewireAll substitution gates instead).1 :=
  rewireAll_keep (fun store _ => Redirects substitution aig store)
    (fun _ _ _ _ redirects => redirects)
    (fun applies stored replaced unmerged redirects =>
      redirects.setFanins applies stored replaced unmerged)
    applies redirects

theorem redirects_refl {aig : Aig} (substitution : Substitution)
    (bookkeeping : aig.Bookkeeping) : Redirects substitution aig aig :=
  { bookkeeping := bookkeeping
    gates := fun _ => rfl
    gained := fun _ _ _ reads => reads
    lost := fun _ _ _ reads => reads }

theorem redirected_redirects {aig : Aig} {substitution : Substitution}
    (bookkeeping : aig.Bookkeeping) (applies : aig.applies substitution = true) :
    Redirects substitution aig (aig.redirected substitution) := by
  have books := bookkeeping_redirectOutputs bookkeeping applies
  have reads : ∀ gate id, (aig.redirectOutputs substitution).GateReads gate id ↔
      aig.GateReads gate id :=
    fun gate id => gateReads_of_gateFanins? id (gateFanins?_redirectOutputs ..)
  refine rewireAll_redirects ⟨books, ?_, ?_, ?_⟩
    ((applies_redirectOutputs aig substitution).trans applies)
  · intro id
    rw [isGate, gateFanins?_redirectOutputs]
    rfl
  · intro gate id _ present
    exact (reads gate id).mp present
  · intro gate id _ former
    exact (reads gate id).mpr former

theorem outputs_redirected {aig : Aig} {substitution : Substitution}
    (applies : aig.applies substitution = true) :
    (aig.redirected substitution).outputs = aig.outputs.map (redirect substitution) :=
  redirected_keep (fun store _ => store.outputs = aig.outputs.map (redirect substitution))
    (fun _ _ _ _ same => same)
    (fun _ _ _ _ same => (outputs_setFanins ..).trans same)
    applies (outputs_redirectOutputs ..)

theorem exists_output_redirected_iff {aig : Aig} {substitution : Substitution}
    (applies : aig.applies substitution = true) {id : Nat} :
    (∃ output ∈ (aig.redirected substitution).outputs, output.node = id) ↔
      (id ≠ substitution.old ∧ ∃ output ∈ aig.outputs, output.node = id) ∨
        (id = substitution.new.node ∧ ∃ output ∈ aig.outputs, output.node = substitution.old) := by
  have different := (applies_iff.mp applies).1
  rw [outputs_redirected applies]
  constructor
  · intro found
    obtain ⟨moved, member, rfl⟩ := found
    obtain ⟨output, former, rfl⟩ := Array.mem_map.mp member
    by_cases reads : output.node = substitution.old
    · have target : (redirect substitution output).node = substitution.new.node := by
        rw [redirect, if_pos reads, Edge.node_complementIf]
      exact .inr ⟨target, output, former, reads⟩
    · have same : redirect substitution output = output := if_neg reads
      rw [same]
      exact .inl ⟨reads, output, former, rfl⟩
  · intro either
    rcases either with ⟨notOld, output, former, rfl⟩ | ⟨rfl, output, former, reads⟩
    · exact ⟨output, Array.mem_map.mpr ⟨output, former, if_neg notOld⟩, rfl⟩
    · refine ⟨_, Array.mem_map.mpr ⟨output, former, rfl⟩, ?_⟩
      rw [redirect, if_pos reads, Edge.node_complementIf]

/-! ### Queued gates -/

private theorem subset_rewireAll (aig : Aig) (substitution : Substitution) (gates : List Nat)
    (instead : List Substitution) :
    instead ⊆ (aig.rewireAll substitution gates instead).2 := by
  induction gates generalizing aig instead with
  | nil => exact List.Subset.refl instead
  | cons gate gates induction =>
      rw [rewireAll]
      apply List.Subset.trans (List.subset_append_right _ instead)
      exact induction _ _

/-- Of the gates that were to be redirected, those that still read the old
node were queued. -/
theorem mem_rewireAll_of_gateReads {aig : Aig} {substitution : Substitution}
    {gates : List Nat} {instead : List Substitution} (bookkeeping : aig.Bookkeeping)
    (applies : aig.applies substitution = true) {reader : Nat} (member : reader ∈ gates)
    (reads : (aig.rewireAll substitution gates instead).1.GateReads reader substitution.old) :
    ∃ queued ∈ (aig.rewireAll substitution gates instead).2, queued.old = reader := by
  have different : substitution.old ≠ substitution.new.node :=
    Ne.symm (applies_iff.mp applies).1
  induction gates generalizing aig instead with
  | nil => cases member
  | cons gate gates induction =>
      rw [rewireAll] at reads ⊢
      by_cases later : reader ∈ gates
      · rcases aig.rewire_cases gate substitution with
          ⟨_, outcome⟩ | ⟨_, _, _, _, _, _, outcome⟩ |
            ⟨before, after, stored, replaced, unmerged, outcome⟩
        · rw [outcome] at reads ⊢
          exact induction bookkeeping applies later reads
        · rw [outcome] at reads ⊢
          exact induction bookkeeping applies later reads
        · rw [outcome] at reads ⊢
          have books := bookkeeping_setFanins bookkeeping applies stored replaced unmerged
          have still := (applies_setFanins after substitution stored).trans applies
          exact induction books still later reads
      · have own : reader = gate := (List.mem_cons.mp member).resolve_right later
        subst own
        rcases aig.rewire_cases reader substitution with
          ⟨unread, outcome⟩ | ⟨_, _, edge, _, _, _, outcome⟩ |
            ⟨before, after, stored, replaced, unmerged, outcome⟩
        · rw [outcome] at reads
          have rest : Redirects substitution aig
              (aig.rewireAll substitution gates ([] ++ instead)).1 :=
            rewireAll_redirects (redirects_refl substitution bookkeeping) applies
          obtain ⟨fanins, stored, sides⟩ := rest.gained reader _ different reads
          obtain ⟨notFirst, notSecond⟩ :=
            Fanins.replace?_eq_none_iff.mp (unread fanins stored)
          exact absurd sides (not_or.mpr ⟨notFirst, notSecond⟩)
        · rw [outcome]
          exact ⟨{ old := reader, new := edge }, subset_rewireAll _ _ _ _ (by simp), rfl⟩
        · rw [outcome] at reads
          have books := bookkeeping_setFanins bookkeeping applies stored replaced unmerged
          have still := (applies_setFanins after substitution stored).trans applies
          have rest : Redirects substitution (aig.setFanins reader before after substitution)
              ((aig.setFanins reader before after substitution).rewireAll substitution gates
                ([] ++ instead)).1 :=
            rewireAll_redirects (redirects_refl substitution books) still
          have former := rest.gained reader _ different reads
          rcases (gateReads_setFanins_iff bookkeeping.toReferences stored replaced unmerged
            reader substitution.old).mp former with ⟨_, moved⟩ | ⟨_, isNew⟩
          · exact absurd ⟨rfl, rfl⟩ moved
          · exact absurd isNew different

theorem exists_queued_of_gateReads {aig : Aig} {substitution : Substitution}
    (bookkeeping : aig.Bookkeeping) (applies : aig.applies substitution = true) {reader : Nat}
    (reads : (aig.redirected substitution).GateReads reader substitution.old) :
    ∃ queued ∈ aig.queued substitution, queued.old = reader := by
  have different := (applies_iff.mp applies).1
  have former := (redirected_redirects bookkeeping applies).gained reader _
    (Ne.symm different) reads
  have member := ((bookkeeping.fanouts substitution.old).mem_iff reader).mpr former
  exact mem_rewireAll_of_gateReads (bookkeeping_redirectOutputs bookkeeping applies)
    ((applies_redirectOutputs aig substitution).trans applies) member reads

theorem gateFanins?_rewireAll_of_not_mem (aig : Aig) (substitution : Substitution)
    {gates : List Nat} (instead : List Substitution) {gate : Nat} (absent : gate ∉ gates) :
    (aig.rewireAll substitution gates instead).1.gateFanins? gate = aig.gateFanins? gate := by
  induction gates generalizing aig instead with
  | nil => rfl
  | cons head gates induction =>
      rw [List.mem_cons, not_or] at absent
      rw [rewireAll]
      rcases aig.rewire_cases head substitution with
        ⟨_, outcome⟩ | ⟨_, _, _, _, _, _, outcome⟩ | ⟨before, after, stored, _, _, outcome⟩
      · rw [outcome]
        exact induction aig _ absent.2
      · rw [outcome]
        exact induction aig _ absent.2
      · rw [outcome]
        apply (induction _ _ absent.2).trans
        rw [gateFanins?_setFanins after substitution stored, if_neg (Ne.symm absent.1)]

theorem gateReads_of_mem_rewireAll {aig : Aig} {substitution : Substitution}
    {gates : List Nat} {instead : List Substitution} (nodup : gates.Nodup)
    {entry : Substitution} (member : entry ∈ (aig.rewireAll substitution gates instead).2) :
    entry ∈ instead ∨
      (aig.rewireAll substitution gates instead).1.GateReads entry.old substitution.old := by
  induction gates generalizing aig instead with
  | nil => exact .inl member
  | cons gate gates induction =>
      obtain ⟨absent, nodup⟩ := List.nodup_cons.mp nodup
      rw [rewireAll] at member ⊢
      rcases aig.rewire_cases gate substitution with
        ⟨_, outcome⟩ | ⟨before, after, edge, stored, replaced, _, outcome⟩ |
          ⟨_, _, _, _, _, outcome⟩
      · rw [outcome] at member ⊢
        exact induction nodup member
      · rw [outcome] at member ⊢
        rcases induction nodup member with queued | reads
        · rcases List.mem_cons.mp queued with rfl | earlier
          · right
            obtain ⟨kept, read, readsOld, sides, _⟩ := Fanins.replace?_cases replaced
            have reads : aig.GateReads gate substitution.old := by
              rw [gateReads_iff stored, ← readsOld]
              rcases sides with ⟨_, rfl⟩ | ⟨_, rfl⟩
              · exact .inl rfl
              · exact .inr rfl
            exact (gateReads_of_gateFanins? _
              (gateFanins?_rewireAll_of_not_mem aig substitution _ absent)).mpr reads
          · exact .inl earlier
        · exact .inr reads
      · rw [outcome] at member ⊢
        exact induction nodup member

theorem gateReads_redirected_iff {aig : Aig} {substitution : Substitution}
    (bookkeeping : aig.Bookkeeping) (applies : aig.applies substitution = true)
    (reader : Nat) :
    (aig.redirected substitution).GateReads reader substitution.old ↔
      ∃ queued ∈ aig.queued substitution, queued.old = reader := by
  constructor
  · exact exists_queued_of_gateReads bookkeeping applies
  · intro waits
    obtain ⟨entry, member, rfl⟩ := waits
    have nodup := (bookkeeping.fanouts substitution.old).nodup
    rcases gateReads_of_mem_rewireAll nodup member with nothing | reads
    · cases nothing
    · exact reads

/-! ### Dangling gates -/

theorem dangling?_isSome_iff {aig : Aig} (bookkeeping : aig.Bookkeeping) {id : Nat} :
    (aig.dangling? id).isSome = true ↔ ¬ aig.Used id ∧ aig.isGate id = true := by
  rw [← bookkeeping.fanoutSize_eq_zero_iff_not_used]
  unfold dangling?
  split
  · rename_i unused
    simp [unused, isGate]
  · rename_i used
    simp [used]

theorem dangling?_of_reclaim {aig : Aig} {stack : List Nat} {id : Nat} {fanins : Fanins}
    (dangling : (aig.reclaim stack).1.dangling? id = some fanins) :
    aig.dangling? id = some fanins ∧ id ∉ stack := by
  induction aig, stack using reclaim.induct with
  | case1 aig =>
      rw [reclaim] at dangling
      exact ⟨dangling, List.not_mem_nil⟩
  | case2 aig top stack used induction =>
      rw [reclaim] at dangling
      split at dangling
      · obtain ⟨former, offStack⟩ := induction dangling
        refine ⟨former, ?_⟩
        intro member
        rcases List.mem_cons.mp member with rfl | later
        · rw [used] at former
          cases former
        · exact offStack later
      · simp_all
  | case3 aig top stack pair removed induction =>
      rw [reclaim] at dangling
      split at dangling
      · simp_all
      · rename_i found present
        cases present.symm.trans removed
        obtain ⟨former, offStack⟩ := induction dangling
        obtain ⟨unused, stored⟩ := dangling?_eq_some_iff.mp former
        simp only [List.mem_cons, not_or] at offStack
        obtain ⟨notSecond, notFirst, notLater⟩ := offStack
        rw [gateFanins?_removeGate] at stored
        split at stored
        · cases stored
        · rename_i another
          have sides : ¬ (pair.first.node = id ∨ pair.second.node = id) :=
            not_or.mpr ⟨Ne.symm notFirst, Ne.symm notSecond⟩
          rw [fanoutSize, fanouts_removeGate, if_neg sides, outputRefs_removeGate] at unused
          refine ⟨dangling?_eq_some_iff.mpr ⟨unused, stored⟩, ?_⟩
          intro member
          rcases List.mem_cons.mp member with same | later
          · exact another same.symm
          · exact notLater later

/-- One substitution leaves no gate dangling that was not dangling before,
and not the substituted one. -/
theorem dangling?_of_replaceUses {aig : Aig} {substitution : Substitution}
    (bookkeeping : aig.Bookkeeping) (applies : aig.applies substitution = true) {id : Nat}
    (dangling : ((aig.replaceUses substitution).aig.dangling? id).isSome = true) :
    (aig.dangling? id).isSome = true ∧ id ≠ substitution.old := by
  obtain ⟨fanins, found⟩ := Option.isSome_iff_exists.mp dangling
  obtain ⟨former, offStack⟩ := dangling?_of_reclaim found
  have notOld : id ≠ substitution.old := fun same => offStack (List.mem_singleton.mpr same)
  have redirects := redirected_redirects bookkeeping applies
  obtain ⟨unused, isGate⟩ := (dangling?_isSome_iff redirects.bookkeeping).mp
    (Option.isSome_iff_exists.mpr ⟨fanins, former⟩)
  rw [redirects.gates] at isGate
  refine ⟨(dangling?_isSome_iff bookkeeping).mpr ⟨?_, isGate⟩, notOld⟩
  intro used
  apply unused
  rcases used with ⟨gate, reads⟩ | output
  · exact .inl ⟨gate, redirects.lost gate id notOld reads⟩
  · exact .inr ((exists_output_redirected_iff applies).mpr (.inl ⟨notOld, output⟩))

theorem Drains.dangling {aig next : Aig} {pending : List Substitution}
    {changes : List Change} (drains : Drains aig pending next changes)
    (bookkeeping : aig.Bookkeeping) {id : Nat}
    (dangling : (next.dangling? id).isSome = true) : (aig.dangling? id).isSome = true := by
  induction drains with
  | done aig => exact dangling
  | skip _ _ induction => exact induction bookkeeping dangling
  | perform applies _ induction =>
      have rest := induction (replaceUses_bookkeeping bookkeeping applies) dangling
      exact (dangling?_of_replaceUses bookkeeping applies rest).1

end Aig

end AndInverter
