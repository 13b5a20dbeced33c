import AndInverter.DepthView.Calls
import AndInverter.Proofs.Aig.Sessions
import AndInverter.Proofs.DepthView.Building
import AndInverter.Proofs.DepthView.CriticalPaths

/-!
# Levels from one refresh to the next

A call that creates a gate is one conjunction, whatever the gate.  It keeps
levels in agreement with the fanins, whether the conjunction is a new gate, one
that was there, or a signal.  No call touches the depth or the flags of the
nodes that were there.
-/

namespace AndInverter

open Network

namespace DepthView

section Frozen

variable {Store : Type} [Network Store] {view next : DepthView Store}

theorem Creates.exists_createAnd (creates : view.Creates next) :
    ∃ left right edge, view.createAnd left right = .ok (edge, next) := by
  obtain ⟨connective, left, right, edge, created⟩ := creates
  cases connective with
  | and => exact ⟨left, right, edge, created⟩
  | nand =>
      obtain ⟨⟨gate, grown⟩, built, result⟩ := bind_eq_ok.mp created
      cases result
      exact ⟨left, right, gate, built⟩
  | or =>
      obtain ⟨⟨gate, grown⟩, built, result⟩ := bind_eq_ok.mp created
      cases result
      exact ⟨left.not, right.not, gate, built⟩

private theorem depth_assignLevel (view : DepthView Store) (left right gate : Edge) :
    (view.assignLevel left right gate).depth = view.depth := by
  unfold assignLevel
  split <;> rfl

private theorem isCritical_assignLevel (view : DepthView Store) (left right gate : Edge)
    (id : Nat) :
    (view.assignLevel left right gate).isCritical id = view.isCritical id := by
  unfold assignLevel
  split
  · rfl
  · exact getD_extend view.critical _ id false

theorem Changes.frozen (changes : Changes view next) :
    next.depth = view.depth ∧ ∀ id, next.isCritical id = view.isCritical id := by
  cases changes with
  | create creates =>
      obtain ⟨left, right, edge, created⟩ := creates.exists_createAnd
      obtain ⟨⟨gate, network⟩, _, result⟩ := bind_eq_ok.mp created
      cases result
      exact ⟨depth_assignLevel .., isCritical_assignLevel _ left right edge⟩
  | substitute substituted =>
      obtain ⟨⟨network, log⟩, _, result⟩ := bind_eq_ok.mp substituted
      cases result
      exact ⟨rfl, fun _ => rfl⟩

theorem changes_of_creates (creates : Relation.ReflTransGen Creates view next) :
    Relation.ReflTransGen Changes view next :=
  creates.lift id fun _ _ => .create

theorem frozen_of_changes (changes : Relation.ReflTransGen Changes view next) :
    next.depth = view.depth ∧ ∀ id, next.isCritical id = view.isCritical id := by
  induction changes with
  | refl => exact ⟨rfl, fun _ => rfl⟩
  | tail _ last induction =>
      obtain ⟨depth, flags⟩ := last.frozen
      exact ⟨depth.trans induction.1, fun id => (flags id).trans (induction.2 id)⟩

theorem isCritical_of_size_le {network : Store} {view : DepthView Store} {id : Nat}
    (seen : ofNetwork network = .ok view) (beyond : size network ≤ id) :
    view.isCritical id = false := by
  rw [← size_critical seen] at beyond
  rw [isCritical, Array.getD_eq_getD_getElem?, Array.getElem?_eq_none beyond, Option.getD_none]

theorem refreshed_of_refresh {stale fresh : DepthView Store}
    (refreshed : stale.refresh = .ok fresh) : Refreshed stale fresh := by
  have same := Rewriting.network_of_ofNetwork refreshed
  have truthful := truthful_of_ofNetwork refreshed
  constructor
  · exact same
  · exact truthful.levels
  · exact truthful.depth
  · exact fun later changes => frozen_of_changes changes
  · intro id beyond
    rw [same] at beyond
    exact isCritical_of_size_le refreshed beyond

end Frozen

variable {view next : DepthView Aig}

theorem live_of_createAnd {left right edge : Edge}
    (created : view.createAnd left right = .ok (edge, next)) :
    view.network.isDead left.node = false ∧ view.network.isDead right.node = false := by
  obtain ⟨leftLive, rightLive, _⟩ := Aig.createAnd_eq (Rewriting.network_of_createAnd created)
  exact ⟨leftLive, rightLive⟩

theorem Creates.tracks (creates : view.Creates next) (tracks : view.Tracks) : next.Tracks := by
  obtain ⟨left, right, edge, created⟩ := creates.exists_createAnd
  obtain ⟨leftLive, rightLive⟩ := live_of_createAnd created
  obtain ⟨gate, grown, built, conjoins⟩ := createAnd_conjoins tracks leftLive rightLive
  cases built.symm.trans created
  exact conjoins.tracks

theorem tracks_of_creates (creates : Relation.ReflTransGen Creates view next)
    (tracks : view.Tracks) : next.Tracks := by
  induction creates with
  | refl => exact tracks
  | tail _ last induction => exact last.tracks induction

theorem exists_create (connective : Connective) {left right : Edge}
    (leftLive : view.network.isDead left.node = false)
    (rightLive : view.network.isDead right.node = false) :
    ∃ edge next, connective.create view left right = .ok (edge, next) := by
  cases connective with
  | and => exact ⟨_, _, createAnd_eq_ok leftLive rightLive⟩
  | nand => exact ⟨_, _, bind_eq_ok.mpr ⟨_, createAnd_eq_ok leftLive rightLive, rfl⟩⟩
  | or =>
      have built : view.createAnd left.not right.not = _ := createAnd_eq_ok leftLive rightLive
      exact ⟨_, _, bind_eq_ok.mpr ⟨_, built, rfl⟩⟩

/-- A refresh succeeds on every acyclic network and computes lengths of longest
paths.  On a graph, levels stay so while gates are created through the view,
and every call on live signals creates one. -/
theorem levels_exact :
    (∀ (Store : Type) [Network Store] (stale : DepthView Store),
      Bounded stale.network → Network.Acyclic stale.network →
        ∃ fresh, stale.refresh = .ok fresh ∧ Refreshed stale fresh) ∧
    ∀ stale : DepthView Aig, stale.network.Reachable → stale.network.Acyclic →
      ∃ fresh, stale.refresh = .ok fresh ∧ Refreshed stale fresh ∧
        ∀ grown, Relation.ReflTransGen Creates fresh grown →
          LevelsAgree grown.network grown.level ∧
          ∀ (connective : Connective) (left right : Edge),
            grown.network.isDead left.node = false → grown.network.isDead right.node = false →
              ∃ edge next, connective.create grown left right = .ok (edge, next) := by
  constructor
  · intro Store network stale bounded acyclic
    obtain ⟨fresh, refreshed⟩ := exists_ofNetwork_of_bounded bounded acyclic
    exact ⟨fresh, refreshed, refreshed_of_refresh refreshed⟩
  · intro stale reachable acyclic
    have bookkeeping := reachable.bookkeeping
    obtain ⟨fresh, refreshed⟩ :=
      exists_ofNetwork_of_bounded bookkeeping.toReferences.bounded acyclic
    have same := Rewriting.network_of_ofNetwork refreshed
    have truthful := truthful_of_ofNetwork refreshed
    have tracks : fresh.Tracks :=
      { bookkeeping := same ▸ bookkeeping
        ports := same ▸ reachable.ports
        levels := truthful.levels
        known := truthful.known }
    refine ⟨fresh, refreshed, refreshed_of_refresh refreshed, fun grown creates => ?_⟩
    refine ⟨(tracks_of_creates creates tracks).levels, ?_⟩
    exact fun connective left right => exists_create connective

/-- After a substitution node 5 reads a later node.  Of three calls the second
finds the gate of the first, and a table that is no graph is refreshed too. -/
theorem levels_exact_disordered :
    (∃ stale fresh : DepthView FaninTable, stale.network = branchingTable ∧
      Bounded stale.network ∧ Network.Acyclic stale.network ∧ stale.refresh = .ok fresh ∧
      LevelsAgree branchingTable fresh.level ∧ fresh.level 5 = 3) ∧
    ∃ stale fresh grown : DepthView Aig, stale.network.Reachable ∧ stale.network.Acyclic ∧
      stale.refresh = .ok fresh ∧ fresh.depth = 3 ∧
      Relation.ReflTransGen Creates fresh grown ∧ LevelsAgree grown.network grown.level ∧
      grown.network.size = 10 ∧ grown.level 7 = 2 ∧ grown.level 5 = 3 ∧ grown.level 9 = 5 ∧
      grown.isCritical 9 = false ∧ grown.depth = 3 ∧
      ∃ edge next, Connective.or.create grown (.plain 9) (.plain 5) = .ok (edge, next) := by
  constructor
  · have checked : (do
        let view ← ofNetwork branchingTable
        return decide (view.level 5 = 3)) = .ok true := by
      decide +kernel
    obtain ⟨view, seen, results⟩ := bind_eq_ok.mp checked
    have height : view.level 5 = 3 := of_decide_eq_true (Except.ok.inj results)
    have bounded := bounded_of_ofNetwork seen
    have acyclic := acyclic_of_ofNetwork seen
    let stale : DepthView FaninTable :=
      { network := branchingTable, levels := #[], critical := #[], depth := 0 }
    obtain ⟨fresh, refreshed, kept⟩ := levels_exact.1 FaninTable stale bounded acyclic
    cases seen.symm.trans refreshed
    have agree := kept.levels
    rw [kept.network] at agree
    exact ⟨stale, view, rfl, bounded, acyclic, refreshed, agree, height⟩
  · have checked : (do
        let ended ← Aig.empty.session [.addInput, .addInput, .addInput,
          .createAnd (.plain 1) (.plain 2), .createAnd (.plain 4) (.plain 3),
          .addOutput (.plain 5), .createAnd (.plain 1) (.plain 3),
          .createAnd (.plain 6) (Edge.plain 2).not, .substitute 5 4 (.plain 7)]
        let view ← ofNetwork ended.1
        let first ← Connective.or.create view (.plain 5) (.plain 6)
        let second ← Connective.nand.create first.2 (Edge.plain 5).not (Edge.plain 6).not
        let third ← Connective.and.create second.2 second.1 (.plain 3)
        return decide (ended.1.size = 8 ∧ view.depth = 3 ∧ third.2.network.size = 10 ∧
          third.2.level 7 = 2 ∧ third.2.level 5 = 3 ∧ third.2.level 9 = 5 ∧
          third.2.network.isDead 9 = false ∧ third.2.network.isDead 5 = false)) = .ok true := by
      decide +kernel
    obtain ⟨⟨aig, changes⟩, ended, checked⟩ := bind_eq_ok.mp checked
    obtain ⟨view, seen, checked⟩ := bind_eq_ok.mp checked
    obtain ⟨⟨edge, first⟩, created, checked⟩ := bind_eq_ok.mp checked
    obtain ⟨⟨edge', second⟩, created', checked⟩ := bind_eq_ok.mp checked
    obtain ⟨⟨edge'', third⟩, created'', results⟩ := bind_eq_ok.mp checked
    obtain ⟨small, deep, size, low, middle, high, live, live'⟩ :=
      of_decide_eq_true (Except.ok.inj results)
    have reachable : aig.Reachable := Aig.evolves_of_session ended
    have acyclic : aig.Acyclic := acyclic_of_ofNetwork seen
    let stale : DepthView Aig := { network := aig, levels := #[], critical := #[], depth := 0 }
    obtain ⟨fresh, refreshed, kept, grows⟩ := levels_exact.2 stale reachable acyclic
    cases seen.symm.trans refreshed
    have creates : Relation.ReflTransGen Creates view third :=
      ((Relation.ReflTransGen.single ⟨_, _, _, edge, created⟩).tail
        ⟨_, _, _, edge', created'⟩).tail ⟨_, _, _, edge'', created''⟩
    obtain ⟨depth, flags⟩ := kept.frozen third (changes_of_creates creates)
    obtain ⟨agree, returns⟩ := grows third creates
    have unknown : view.isCritical 9 = false := by
      apply kept.unknown
      rw [kept.network]
      exact Nat.le_trans (Nat.le_of_eq small) (Nat.le_succ 8)
    exact ⟨stale, view, third, reachable, acyclic, refreshed, deep, creates, agree, size, low,
      middle, high, (flags 9).trans unknown, depth.trans deep, returns .or _ _ live live'⟩

end DepthView

end AndInverter
