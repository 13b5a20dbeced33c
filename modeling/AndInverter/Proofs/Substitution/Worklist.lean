import AndInverter.Proofs.Aig.Edits

/-!
# The worklist of a substitution

What one redirection can do, and a relation for what a successful run of the
worklist does: each pending substitution is skipped or performed.  Proofs
about substitution go by induction on this relation, which has no bound on
the number of steps.
-/

namespace AndInverter

namespace Aig

/-- Redirecting a gate leaves the store as it is because the gate does not
read the node, queues the gate, or gives it other fanins. -/
theorem rewire_cases (aig : Aig) (gate : Nat) (substitution : Substitution) :
    ((∀ before, aig.gateFanins? gate = some before → before.replace? substitution = none) ∧
      aig.rewire gate substitution = (aig, none)) ∨
    (∃ before after edge, aig.gateFanins? gate = some before ∧
      before.replace? substitution = some after ∧
      aig.merged? substitution.old after = some edge ∧
      aig.rewire gate substitution = (aig, some { old := gate, new := edge })) ∨
    (∃ before after, aig.gateFanins? gate = some before ∧
      before.replace? substitution = some after ∧
      aig.merged? substitution.old after = none ∧
      aig.rewire gate substitution =
        (aig.setFanins gate before after substitution, none)) := by
  cases stored : aig.gateFanins? gate with
  | none => exact .inl ⟨by simp, by simp [rewire, stored]⟩
  | some before =>
      cases replaced : before.replace? substitution with
      | none => exact .inl ⟨by simp [replaced], by simp [rewire, stored, replaced]⟩
      | some after =>
          cases merged : aig.merged? substitution.old after with
          | some edge =>
              exact .inr (.inl ⟨before, after, edge, rfl, replaced, merged,
                by simp [rewire, stored, replaced, merged]⟩)
          | none =>
              exact .inr (.inr ⟨before, after, rfl, replaced, merged,
                by simp [rewire, stored, replaced, merged]⟩)

/-- The store after the uses of a node were redirected, before it is
reclaimed. -/
def redirected (aig : Aig) (substitution : Substitution) : Aig :=
  ((aig.redirectOutputs substitution).rewireAll substitution
    (aig.fanouts substitution.old) []).1

/-- The gates that were queued instead of being redirected. -/
def queued (aig : Aig) (substitution : Substitution) : List Substitution :=
  ((aig.redirectOutputs substitution).rewireAll substitution
    (aig.fanouts substitution.old) []).2

theorem replaceUses_eq (aig : Aig) (substitution : Substitution) :
    aig.replaceUses substitution =
      { aig := ((aig.redirected substitution).reclaim [substitution.old]).1
        instead := aig.queued substitution
        reclaimed := ((aig.redirected substitution).reclaim [substitution.old]).2 } :=
  rfl

/-- A run of the worklist: the store and the pending substitutions before it,
the store after it and the changes it made. -/
inductive Drains : Aig → List Substitution → Aig → List Change → Prop
  | done (aig : Aig) : Drains aig [] aig []
  | skip {aig next : Aig} {substitution : Substitution} {pending : List Substitution}
      {changes : List Change} (idle : aig.applies substitution = false)
      (rest : Drains aig pending next changes) :
      Drains aig (substitution :: pending) next changes
  | perform {aig next : Aig} {substitution : Substitution} {pending : List Substitution}
      {later : List Change} (applies : aig.applies substitution = true)
      (rest : Drains (aig.replaceUses substitution).aig
        ((aig.replaceUses substitution).instead ++ pending) next later) :
      Drains aig (substitution :: pending) next
        (.substituting substitution.old substitution.new ::
          (aig.replaceUses substitution).reclaimed.map .reclaiming ++ later)

theorem substituteAll_drains {fuel : Nat} {aig next : Aig} {pending : List Substitution}
    {changes : List Change} (ended : aig.substituteAll fuel pending = .ok (next, changes)) :
    Drains aig pending next changes := by
  induction fuel generalizing aig pending changes with
  | zero =>
      cases pending with
      | nil =>
          cases ended
          exact .done _
      | cons substitution pending => cases ended
  | succ fuel induction =>
      cases pending with
      | nil =>
          cases ended
          exact .done _
      | cons substitution pending =>
          rw [substituteAll] at ended
          split at ended
          · rename_i applies
            obtain ⟨⟨store, later⟩, rest, result⟩ := bind_eq_ok.mp ended
            cases result
            exact .perform applies (induction rest)
          · rename_i idle
            exact .skip (Bool.not_eq_true _ ▸ idle) (induction ended)

theorem substitute_drains {fuel : Nat} {aig next : Aig} {old : Nat} {new : Edge}
    {changes : List Change} (ended : aig.substitute fuel old new = .ok (next, changes)) :
    Drains aig [{ old := old, new := new }] next changes :=
  substituteAll_drains ended

theorem applies_redirectOutputs (aig : Aig) (substitution : Substitution) :
    (aig.redirectOutputs substitution).applies substitution = aig.applies substitution := by
  simp [applies]

theorem applies_setFanins {aig : Aig} {gate : Nat} {before : Fanins} (after : Fanins)
    (substitution : Substitution) (stored : aig.gateFanins? gate = some before) :
    (aig.setFanins gate before after substitution).applies substitution =
      aig.applies substitution := by
  simp [applies, isDead_setFanins after substitution stored]

/-- What redirecting one gate keeps, redirecting any number of them keeps.
The law may speak of the gates that are queued. -/
theorem rewireAll_keep {substitution : Substitution}
    (law : Aig → List Substitution → Prop)
    (queue : ∀ {aig instead gate before after edge}, aig.applies substitution = true →
      aig.gateFanins? gate = some before → before.replace? substitution = some after →
      aig.merged? substitution.old after = some edge →
      law aig instead → law aig ({ old := gate, new := edge } :: instead))
    (set : ∀ {aig instead gate before after}, aig.applies substitution = true →
      aig.gateFanins? gate = some before → before.replace? substitution = some after →
      aig.merged? substitution.old after = none →
      law aig instead → law (aig.setFanins gate before after substitution) instead)
    {aig : Aig} {gates : List Nat} {instead : List Substitution}
    (applies : aig.applies substitution = true) (holds : law aig instead) :
    law (aig.rewireAll substitution gates instead).1
      (aig.rewireAll substitution gates instead).2 := by
  induction gates generalizing aig instead with
  | nil => exact holds
  | cons gate gates induction =>
      rw [rewireAll]
      rcases aig.rewire_cases gate substitution with
        ⟨_, outcome⟩ | ⟨before, after, edge, stored, replaced, merged, outcome⟩ |
          ⟨before, after, stored, replaced, unmerged, outcome⟩
      · rw [outcome]
        exact induction applies holds
      · rw [outcome]
        exact induction applies (queue applies stored replaced merged holds)
      · rw [outcome]
        exact induction ((applies_setFanins after substitution stored).trans applies)
          (set applies stored replaced unmerged holds)

/-- What queueing and redirecting one gate keeps holds after all gates that
read the node were queued or redirected. -/
theorem redirected_keep {aig : Aig} {substitution : Substitution}
    (law : Aig → List Substitution → Prop)
    (queue : ∀ {aig instead gate before after edge}, aig.applies substitution = true →
      aig.gateFanins? gate = some before → before.replace? substitution = some after →
      aig.merged? substitution.old after = some edge →
      law aig instead → law aig ({ old := gate, new := edge } :: instead))
    (set : ∀ {aig instead gate before after}, aig.applies substitution = true →
      aig.gateFanins? gate = some before → before.replace? substitution = some after →
      aig.merged? substitution.old after = none →
      law aig instead → law (aig.setFanins gate before after substitution) instead)
    (applies : aig.applies substitution = true)
    (start : law (aig.redirectOutputs substitution) []) :
    law (aig.redirected substitution) (aig.queued substitution) :=
  rewireAll_keep law queue set ((applies_redirectOutputs aig substitution).trans applies) start

theorem redirected_edits {olds : Nat → Prop} {aig : Aig} {substitution : Substitution}
    (listed : olds substitution.old) (applies : aig.applies substitution = true) :
    Edits olds aig (aig.redirected substitution) :=
  redirected_keep (fun store _ => Edits olds aig store)
    (fun _ _ _ _ edits => edits)
    (fun applies stored replaced unmerged edits =>
      edits.tail (.rewire listed applies stored replaced unmerged))
    applies (.single (.redirect listed applies))

theorem replaceUses_edits {olds : Nat → Prop} {aig : Aig} {substitution : Substitution}
    (listed : olds substitution.old) (applies : aig.applies substitution = true) :
    Edits olds aig (aig.replaceUses substitution).aig :=
  (redirected_edits listed applies).trans (reclaim_edits _ _)

/-- A run redirects the uses of no node but those that it reports. -/
theorem Drains.edits {aig next : Aig} {pending : List Substitution} {changes : List Change}
    (drains : Drains aig pending next changes) : Edits (Substituted changes) aig next := by
  induction drains with
  | done aig => exact .refl
  | skip _ _ induction => exact induction
  | @perform aig next substitution pending later applies _ induction =>
      have listed : Substituted (.substituting substitution.old substitution.new ::
          (aig.replaceUses substitution).reclaimed.map .reclaiming ++ later)
          substitution.old := ⟨substitution.new, by simp⟩
      refine (replaceUses_edits listed applies).trans
        (induction.mono fun _ => Substituted.mono ?_)
      exact List.subset_append_right _ later

theorem Drains.append {aig middle next : Aig} {pending rest : List Substitution}
    {changes more : List Change} (first : Drains aig pending middle changes)
    (second : Drains middle rest next more) : Drains aig (pending ++ rest) next (changes ++ more) := by
  induction first with
  | done aig => exact second
  | skip idle _ induction => exact .skip idle (induction second)
  | perform applies _ induction =>
      have later := induction second
      rw [List.append_assoc] at later
      rw [List.append_assoc]
      exact .perform applies later

theorem Drains.unique {aig left right : Aig} {pending : List Substitution}
    {changes more : List Change} (first : Drains aig pending left changes)
    (second : Drains aig pending right more) : left = right ∧ changes = more := by
  induction first generalizing right more with
  | done aig =>
      cases second
      exact ⟨rfl, rfl⟩
  | skip idle _ induction =>
      cases second with
      | skip _ rest => exact induction rest
      | perform applies _ =>
          rw [idle] at applies
          cases applies
  | perform applies _ induction =>
      cases second with
      | skip idle _ =>
          rw [applies] at idle
          cases idle
      | perform _ rest =>
          obtain ⟨rfl, rfl⟩ := induction rest
          exact ⟨rfl, rfl⟩

theorem Drains.exists_bound {aig next : Aig} {pending : List Substitution}
    {changes : List Change} (drains : Drains aig pending next changes) :
    ∃ bound, ∀ fuel, bound ≤ fuel → aig.substituteAll fuel pending = .ok (next, changes) := by
  induction drains with
  | done aig =>
      refine ⟨0, fun fuel _ => ?_⟩
      cases fuel <;> rfl
  | skip idle _ induction =>
      obtain ⟨bound, ended⟩ := induction
      refine ⟨bound + 1, fun fuel enough => ?_⟩
      obtain ⟨fuel, rfl⟩ := Nat.exists_eq_succ_of_ne_zero (Nat.ne_zero_of_lt enough)
      rw [substituteAll, if_neg (Bool.not_eq_true _ ▸ idle)]
      exact ended fuel (Nat.le_of_succ_le_succ enough)
  | perform applies _ induction =>
      obtain ⟨bound, ended⟩ := induction
      refine ⟨bound + 1, fun fuel enough => ?_⟩
      obtain ⟨fuel, rfl⟩ := Nat.exists_eq_succ_of_ne_zero (Nat.ne_zero_of_lt enough)
      rw [substituteAll, if_pos applies]
      exact bind_eq_ok.mpr ⟨_, ended fuel (Nat.le_of_succ_le_succ enough), rfl⟩

end Aig

end AndInverter
