import AndInverter.Proofs.Rewriting.Preservation
import AndInverter.Proofs.Substitution.Folding
import Mathlib.Data.Set.Card

/-!
# When a substitution ends

A substitution by an edge that does not depend on the node leads to others,
each chosen before its turn comes.  As long as none of them has come to depend
on its node by then, the store stays acyclic and the worklist runs empty: the
gates that one entry queues lie above the entry's node, and nothing joins the
gates above it while they are replaced.
-/

namespace AndInverter

namespace Aig

/-- The worklist comes to an entry that is performed and bad. -/
inductive Meets (bad : Aig → Substitution → Prop) : Aig → List Substitution → Prop
  | here {aig : Aig} {substitution : Substitution} {pending : List Substitution}
      (applies : aig.applies substitution = true) (found : bad aig substitution) :
      Meets bad aig (substitution :: pending)
  | skip {aig : Aig} {substitution : Substitution} {pending : List Substitution}
      (idle : aig.applies substitution = false) (rest : Meets bad aig pending) :
      Meets bad aig (substitution :: pending)
  | perform {aig : Aig} {substitution : Substitution} {pending : List Substitution}
      (applies : aig.applies substitution = true)
      (rest : Meets bad (aig.replaceUses substitution).aig
        ((aig.replaceUses substitution).instead ++ pending)) :
      Meets bad aig (substitution :: pending)

/-- The replacing edge depends on the replaced node. -/
def dependent (aig : Aig) (substitution : Substitution) : Prop :=
  ¬ aig.independent substitution

variable {bad : Aig → Substitution → Prop}

theorem Meets.append {aig : Aig} {pending : List Substitution} (meets : Meets bad aig pending)
    (rest : List Substitution) : Meets bad aig (pending ++ rest) := by
  induction meets with
  | here applies found => exact .here applies found
  | skip idle _ induction => exact .skip idle induction
  | perform applies _ induction =>
      apply Meets.perform applies
      rwa [List.append_assoc] at induction

theorem Meets.after {aig next : Aig} {pending rest : List Substitution} {changes : List Change}
    (drains : Drains aig pending next changes) (meets : Meets bad next rest) :
    Meets bad aig (pending ++ rest) := by
  induction drains with
  | done aig => exact meets
  | skip idle _ induction => exact .skip idle (induction meets)
  | perform applies _ induction =>
      apply Meets.perform applies
      have later := induction meets
      rwa [List.append_assoc] at later

/-! ### What stays below the replaced gates -/

/-- Only gates of the given set have come to read other nodes, and only uses
of its members were lost by gates that are left. -/
structure Confined (gates : Set Nat) (aig next : Aig) : Prop where
  gained : ∀ gate id, next.GateReads gate id → aig.GateReads gate id ∨ gate ∈ gates
  kept : ∀ gate id, id ∉ gates → aig.GateReads gate id →
    next.GateReads gate id ∨ next.isDead gate = true
  dead : ∀ id, aig.isDead id = true → next.isDead id = true

private theorem confined_refl (gates : Set Nat) (aig : Aig) : Confined gates aig aig :=
  { gained := fun _ _ reads => .inl reads
    kept := fun _ _ _ reads => .inl reads
    dead := fun _ dead => dead }

theorem Confined.trans {gates : Set Nat} {aig middle next : Aig}
    (first : Confined gates aig middle) (second : Confined gates middle next) :
    Confined gates aig next := by
  constructor
  · intro gate id reads
    rcases second.gained gate id reads with former | inside
    · exact first.gained gate id former
    · exact .inr inside
  · intro gate id outside reads
    rcases first.kept gate id outside reads with still | dead
    · exact second.kept gate id outside still
    · exact .inr (second.dead gate dead)
  · intro id dead
    exact second.dead id (first.dead id dead)

theorem Confined.mono {gates more : Set Nat} {aig next : Aig} (confined : Confined gates aig next)
    (subset : gates ⊆ more) : Confined more aig next := by
  refine { confined with gained := ?_, kept := ?_ }
  · intro gate id reads
    rcases confined.gained gate id reads with former | inside
    · exact .inl former
    · exact .inr (subset inside)
  · intro gate id outside reads
    exact confined.kept gate id (fun inside => outside (subset inside)) reads

def gatesAbove (aig : Aig) (id : Nat) : Set Nat :=
  { gate | aig.Above id gate }

variable {aig next : Aig} {substitution : Substitution}

private theorem finite_gatesAbove (aig : Aig) (id : Nat) : (aig.gatesAbove id).Finite := by
  apply (Set.finite_lt_nat aig.size).subset
  intro gate above
  obtain ⟨fanins, stored⟩ := isGate_iff.mp (isGate_of_above above)
  exact lt_size_of_gateFanins? stored

theorem Confined.gatesAbove_subset {id : Nat}
    (confined : Confined (aig.gatesAbove id) aig next) :
    next.gatesAbove id ⊆ aig.gatesAbove id := by
  intro gate above
  have step : ∀ {gate read}, Network.Reads next gate read →
      Network.Reads aig gate read ∨ aig.Above id gate := by
    intro gate read reads
    rcases confined.gained gate read (reads_iff.mp reads) with former | inside
    · exact .inl (reads_iff.mpr former)
    · exact .inr inside
  induction above using Relation.TransGen.head_induction_on with
  | single last =>
      rcases step last with former | already
      · exact .single former
      · exact already
  | head first _ induction =>
      rcases step first with former | already
      · exact .head former induction
      · exact already

theorem replaceUses_confined (orderly : aig.Orderly)
    (applies : aig.applies substitution = true) {gates : Set Nat}
    (listed : substitution.old ∈ gates)
    (above : aig.gatesAbove substitution.old ⊆ gates) :
    Confined gates aig (aig.replaceUses substitution).aig := by
  have shrinks := replaceUses_shrinks orderly.bookkeeping applies
  constructor
  · intro gate id reads
    rcases gateReads_of_replaceUses orderly.bookkeeping orderly.constant applies reads with
      former | ⟨readsOld, _⟩
    · exact .inl former
    · exact .inr (above (.single (reads_iff.mpr readsOld)))
  · intro gate id outside reads
    have notOld : id ≠ substitution.old := fun same => outside (same ▸ listed)
    have redirects := redirected_redirects orderly.bookkeeping applies
    cases live : (aig.replaceUses substitution).aig.isDead gate with
    | true => exact .inr rfl
    | false =>
        left
        exact gateReads_reclaim_iff.mpr ⟨redirects.lost gate id notOld reads, live⟩
  · exact shrinks.dead

/-- The gates above a gate that reads a node are fewer than those above the
node. -/
theorem ncard_gatesAbove_lt {gate id : Nat} (acyclic : next.Acyclic)
    (reads : aig.GateReads gate id) (subset : next.gatesAbove gate ⊆ aig.gatesAbove gate) :
    (next.gatesAbove gate).ncard < (aig.gatesAbove id).ncard := by
  have step : Network.Reads aig gate id := reads_iff.mpr reads
  apply Set.ncard_lt_ncard _ (finite_gatesAbove aig id)
  refine ⟨fun other above => (subset above).tail step, fun all => ?_⟩
  have inside : gate ∈ aig.gatesAbove id := .single step
  exact acyclic gate (all inside)

/-- All that waits for a node is done in the end, unless the worklist comes to
a dependent entry.  What an entry queues lies above a gate that lies above the
node. -/
theorem exists_drains_of_waiting {bound : Nat} {aig : Aig} {id : Nat}
    {waiting : List Substitution} (orderly : aig.Orderly)
    (few : (aig.gatesAbove id).ncard < bound)
    (waits : ∀ entry ∈ waiting, aig.isDead entry.old = true ∨ aig.GateReads entry.old id)
    (never : ¬ Meets dependent aig waiting) :
    ∃ next changes, Drains aig waiting next changes ∧ next.Orderly ∧
      Confined (aig.gatesAbove id) aig next := by
  induction bound generalizing aig id waiting with
  | zero => exact absurd few (Nat.not_lt_zero _)
  | succ bound lower =>
    induction waiting generalizing aig with
    | nil => exact ⟨aig, [], .done aig, orderly, confined_refl _ _⟩
    | cons entry waiting rest =>
      cases applies : aig.applies entry with
      | false =>
        obtain ⟨next, changes, drains, done, confined⟩ := rest orderly few
          (fun other member => waits other (List.mem_cons_of_mem _ member))
          (fun meets => never (.skip applies meets))
        exact ⟨next, changes, .skip applies drains, done, confined⟩
      | true =>
        obtain ⟨_, live, _⟩ := applies_iff.mp applies
        have reads : aig.GateReads entry.old id := by
          rcases waits entry List.mem_cons_self with dead | reads
          · rw [dead] at live
            cases live
          · exact reads
        have independent : aig.independent entry := by
          by_contra found
          exact never (.here applies found)
        have above : aig.gatesAbove entry.old ⊆ aig.gatesAbove id :=
          fun gate path => path.tail (reads_iff.mpr reads)
        have here : Confined (aig.gatesAbove id) aig (aig.replaceUses entry).aig :=
          replaceUses_confined orderly applies (.single (reads_iff.mpr reads)) above
        have started := Folding.start orderly applies independent
          List.not_mem_nil
        -- the gates that the entry has queued, then those that waited with it
        obtain ⟨middle, early, inner, middleOrderly, innerConfined⟩ := lower started.orderly
          (Nat.lt_of_lt_of_le (ncard_gatesAbove_lt started.orderly.acyclic reads started.above)
            (Nat.le_of_lt_succ few))
          (fun queued member => (started.entries queued member).imp_right And.left)
          (fun meets => never (.perform applies (meets.append waiting)))
        have confined := here.trans
          (innerConfined.mono (Set.Subset.trans started.above above))
        have fewer := confined.gatesAbove_subset
        obtain ⟨next, late, outer, nextOrderly, outerConfined⟩ := rest middleOrderly
          (Nat.lt_of_le_of_lt (Set.ncard_le_ncard fewer (finite_gatesAbove aig id)) few)
          (fun other member => by
            rcases waits other (List.mem_cons_of_mem _ member) with dead | former
            · exact .inl (confined.dead _ dead)
            · exact (confined.kept _ _ (orderly.acyclic id) former).symm)
          (fun meets => never (.perform applies (meets.after inner)))
        exact ⟨next, _, .perform applies (inner.append outer), nextOrderly,
          confined.trans (outerConfined.mono fewer)⟩

/-- A substitution ends with an acyclic store, unless it comes to a dependent
entry. -/
theorem exists_drains (orderly : aig.Orderly) (applies : aig.applies substitution = true)
    (independent : aig.independent substitution)
    (never : ¬ Meets dependent aig [substitution]) :
    ∃ next changes, Drains aig [substitution] next changes ∧ next.Acyclic := by
  have started := Folding.start orderly applies independent List.not_mem_nil
  obtain ⟨next, changes, drains, done, _⟩ := exists_drains_of_waiting started.orderly
    (Nat.lt_succ_self _) (fun queued member => (started.entries queued member).imp_right And.left)
    (fun meets => never (.perform applies (meets.append [])))
  rw [← List.append_nil (aig.replaceUses substitution).instead] at drains
  exact ⟨next, _, .perform applies drains, done.acyclic⟩

/-- What settles ends with a folded store. -/
theorem exists_folding (orderly : aig.Orderly) (applies : aig.applies substitution = true)
    (independent : aig.independent substitution) {fuel : Nat}
    (settles : aig.settles fuel [] [substitution] = true) :
    ∃ image next changes, Drains aig [substitution] next changes ∧
      Folding aig [] substitution image next [] := by
  cases fuel with
  | zero => cases settles
  | succ fuel =>
      rw [Aig.settles, if_pos applies, Bool.and_eq_true] at settles
      have started := Folding.start orderly applies independent List.not_mem_nil
      obtain ⟨image, next, changes, _, _, _, _, drains, done, _⟩ :=
        started.finish List.mem_cons_self (List.nil_subset _) settles.2
      rw [← List.append_nil (aig.replaceUses substitution).instead] at drains
      exact ⟨image, next, _, .perform applies drains, done⟩

theorem Reachable.orderly (reachable : aig.Reachable) (acyclic : aig.Acyclic) : aig.Orderly :=
  { bookkeeping := reachable.bookkeeping
    constant := reachable.ports.isGate_constant
    acyclic := acyclic }

/-- A substitution of a live node by a live edge that does not depend on it
ends with an acyclic store, unless its worklist comes to a gate whose
replacement, chosen when the gate was queued, has come to depend on it.  Then
some entry does not settle either: it finds a replacement that is dead, or
that was substituted itself. -/
theorem substitute_ends (reachable : aig.Reachable) (acyclic : aig.Acyclic) {old : Nat}
    {new : Edge} (oldLive : aig.isDead old = false) (newLive : aig.isDead new.node = false)
    (different : new.node ≠ old) (independent : aig.independent { old := old, new := new }) :
    (∃ fuel next changes, aig.substitute fuel old new = .ok (next, changes) ∧ next.Acyclic) ∨
      (Meets dependent aig [{ old := old, new := new }] ∧
        ∀ fuel, aig.settles fuel [] [{ old := old, new := new }] = false) := by
  have applies : aig.applies { old := old, new := new } = true :=
    applies_iff.mpr ⟨different, oldLive, newLive⟩
  have orderly := reachable.orderly acyclic
  have ends : ∀ {next changes}, Drains aig [{ old := old, new := new }] next changes →
      ∃ fuel, aig.substitute fuel old new = .ok (next, changes) := by
    intro next changes drains
    obtain ⟨bound, ended⟩ := drains.exists_bound
    exact ⟨bound, ended bound (Nat.le_refl _)⟩
  by_cases meets : Meets dependent aig [{ old := old, new := new }]
  · by_cases settling : ∃ fuel, aig.settles fuel [] [{ old := old, new := new }] = true
    · obtain ⟨_, settles⟩ := settling
      obtain ⟨_, next, changes, drains, folding⟩ :=
        exists_folding orderly applies independent settles
      obtain ⟨fuel, ended⟩ := ends drains
      exact .inl ⟨fuel, next, changes, ended, folding.orderly.acyclic⟩
    · right
      refine ⟨meets, fun fuel => ?_⟩
      rw [← Bool.not_eq_true]
      exact fun settles => settling ⟨fuel, settles⟩
  · obtain ⟨next, changes, drains, done⟩ := exists_drains orderly applies independent meets
    obtain ⟨fuel, ended⟩ := ends drains
    exact .inl ⟨fuel, next, changes, ended, done⟩

theorem substitute_ends_merging : ∃ aig fuel next changes, Aig.Reachable aig ∧ aig.Acyclic ∧
    aig.independent { old := 3, new := .plain 1 } ∧
      aig.substitute fuel 3 (.plain 1) = .ok (next, changes) ∧ next.Acyclic := by
  have checked : (do
      let ended ← Aig.empty.session [.addInput, .addInput, .addInput,
        .createAnd (.plain 1) (.plain 2), .createAnd (.plain 3) (.plain 2),
        .createAnd (.plain 5) (.plain 3), .addOutput (.plain 4), .addOutput (.plain 6)]
      let _ ← DepthView.ofNetwork ended.1
      return !ended.1.isDead 3 && !ended.1.isDead 1 &&
        ended.1.isIndependent { old := 3, new := .plain 1 } &&
        ended.1.settles 10 [] [{ old := 3, new := .plain 1 }]) = .ok true := by
    decide +kernel
  obtain ⟨⟨aig, log⟩, ended, rest⟩ := bind_eq_ok.mp checked
  obtain ⟨view, seen, results⟩ := bind_eq_ok.mp rest
  simp only [pure_eq_ok, Bool.and_eq_true, Bool.not_eq_true'] at results
  obtain ⟨⟨⟨oldLive, newLive⟩, shown⟩, settles⟩ := results
  have reachable : aig.Reachable := evolves_of_session ended
  have acyclic : aig.Acyclic := Network.acyclic_of_ofNetwork seen
  have independent := independent_of_isIndependent shown
  rcases substitute_ends reachable acyclic oldLive newLive (by decide) independent with
    ⟨fuel, next, changes, substituted, done⟩ | ⟨_, unsettled⟩
  · exact ⟨aig, fuel, next, changes, reachable, acyclic, independent, substituted, done⟩
  · rw [unsettled 10] at settles
    cases settles

/-- A chain of gates on which a safe substitution closes a cycle. -/
def cycleByConstantSession : List Operation :=
  [.addInput, .addInput, .addInput, .addInput,
    .createAnd (.plain 1) (.plain 4), .createAnd (Edge.plain 5).not (.plain 2),
    .createAnd (.plain 6) (Edge.plain 1).not, .createAnd (Edge.plain 7).not (.plain 4),
    .createAnd (.plain 2) (Edge.plain 8).not, .createAnd (.plain 8) (.plain 3),
    .createAnd (.plain 8) (Edge.plain 4).not, .createAnd (.plain 4) (.plain 3),
    .createAnd (Edge.plain 12).not (.plain 11), .substitute 10 1 (.plain 2)]

/-- A substitution by the constant, which depends on nothing, can close a
cycle: the gate that replaces another one has meanwhile come to read it. -/
theorem not_substitute_acyclic : ∃ (aig next : Aig) (fuel old : Nat) (new : Edge)
    (changes : List Change), aig.SafelyReachable ∧ aig.Acyclic ∧ aig.isDead old = false ∧
      aig.isDead new.node = false ∧ new.node ≠ old ∧
      aig.independent { old := old, new := new } ∧
      aig.substitute fuel old new = .ok (next, changes) ∧ ¬ next.Acyclic := by
  have checked : (do
      let ended ← Aig.empty.session cycleByConstantSession
      let _ ← DepthView.ofNetwork ended.1
      let replaced ← ended.1.substitute 10 2 (.constant true)
      return Aig.empty.isSafeSession cycleByConstantSession &&
        !ended.1.isDead 2 && !ended.1.isDead 0 &&
        ended.1.isIndependent { old := 2, new := .constant true } &&
        decide (replaced.1.gateFanins? 7 =
          some (Fanins.mk (Edge.plain 2).not (Edge.plain 8).not)) &&
        decide (replaced.1.gateFanins? 8 =
          some (Fanins.mk (.plain 4) (Edge.plain 7).not))) = .ok true := by
    decide +kernel
  obtain ⟨⟨aig, log⟩, ended, rest⟩ := bind_eq_ok.mp checked
  obtain ⟨view, seen, rest⟩ := bind_eq_ok.mp rest
  obtain ⟨⟨next, changes⟩, substituted, results⟩ := bind_eq_ok.mp rest
  simp only [pure_eq_ok, Bool.and_eq_true, Bool.not_eq_true', decide_eq_true_eq] at results
  obtain ⟨⟨⟨⟨⟨safe, oldLive⟩, newLive⟩, shown⟩, seventh⟩, eighth⟩ := results
  refine ⟨aig, next, 10, 2, .constant true, changes, safeSteps_of_session ended safe,
    Network.acyclic_of_ofNetwork seen, oldLive, newLive, by decide,
    independent_of_isIndependent shown, substituted, ?_⟩
  intro acyclic
  have down : Network.Reads next 7 8 := reads_iff.mpr ⟨_, seventh, .inr rfl⟩
  have back : Network.Reads next 8 7 := reads_iff.mpr ⟨_, eighth, .inr rfl⟩
  exact acyclic 7 (.tail (.single down) back)

end Aig

end AndInverter
