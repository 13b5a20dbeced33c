import AndInverter.Aig.Integrity
import AndInverter.Proofs.Rewriting.Preservation
import AndInverter.Proofs.Rewriting.Search

/-!
# What a rewrite gains

On a view that is up to date, associativity and distributivity put something
lower in the place of their node.  So does the three-layer rule where `a` and
`b` leave a level to spare.  The rule does not ask for that: it wants `a` two
levels below the branch, and of `b` only that it is not both critical and
complemented.  With `a` two levels below the branch and not more, or with `b`
next below it, the replacement can come out at the level of the node.
-/

namespace AndInverter

namespace Rule

variable {view : DepthView Aig} {node : Nat}

/-- The shape of three-layer distributivity with no level to spare: `a` is two
levels below the branch and not more, or `b` is next below it. -/
def Tight (view : DepthView Aig) (node : Nat) : Prop :=
  ∃ branch a inner b x d, Distributes view node branch a inner b x d ∧
    (edgeLevel view a + 2 = edgeLevel view branch ∨ edgeLevel view b + 1 = edgeLevel view branch)

theorem Distributes.height_lt (truthful : view.Truthful) {branch a inner b x d : Edge}
    (distributes : Distributes view node branch a inner b x d)
    (aSpare : edgeLevel view a + 2 ≠ edgeLevel view branch)
    (bSpare : edgeLevel view b + 1 ≠ edgeLevel view branch) :
    max (max (edgeLevel view x) (max (edgeLevel view a) (edgeLevel view d) + 1) + 1)
        (max (edgeLevel view a) (edgeLevel view b) + 1) + 1 < view.level node := by
  apply Nat.lt_of_le_of_lt (distributes.height_le_branch truthful)
  have branchLevel :=
    level_lt_of_mem_layer truthful (Layer.mem_edges_of_critical distributes.onTop)
  have bLevel := level_lt_of_mem_layer truthful (Layer.mem_edges_of_others distributes.besideMiddle)
  have aLevel := distributes.slack
  unfold edgeLevel at *
  omega

/-- What a rule finds is lower than the node, or the three-layer rule has no
level to spare. -/
theorem height_lt_or_tight (truthful : view.Truthful) (references : view.network.References)
    {rule : Rule} {recipe : Recipe} (found : rule.examine view node = .found recipe) :
    recipe.height view.level < view.level node ∨
      rule = .threeLayerDistributivity ∧ Tight view node := by
  by_cases layered : rule = .threeLayerDistributivity
  · subst layered
    obtain ⟨branch, a, inner, b, x, d, distributes, rfl⟩ := distributes_of_matchThreeLayer found
    by_cases aTight : edgeLevel view a + 2 = edgeLevel view branch
    · exact .inr ⟨rfl, branch, a, inner, b, x, d, distributes, .inl aTight⟩
    · by_cases bTight : edgeLevel view b + 1 = edgeLevel view branch
      · exact .inr ⟨rfl, branch, a, inner, b, x, d, distributes, .inr bTight⟩
      · exact .inl (distributes.height_lt truthful aTight bTight)
  · exact .inl ((suits_of_examine truthful references found).gains layered)

end Rule

namespace Rewriting

open Aig

/-- Every acyclic store has an up-to-date view, and on it each rule has an
answer for each node.  Just before the substitution that a rule asks for, the
levels are still right, the node has kept its own, and the replacement is
lower; or it is as high as the node, and the three-layer rule has found its
shape with no level to spare. -/
theorem propose_gains {aig : Aig} (reachable : aig.Reachable) (acyclic : aig.Acyclic) :
    ∃ view, DepthView.ofNetwork aig = .ok view ∧ Network.LevelsAgree aig view.level ∧
      ∀ rule node, ∃ proposal, propose rule view node = .ok proposal ∧
        Network.LevelsAgree proposal.view.network proposal.view.level ∧
        ∀ edge, proposal.replacement = some edge →
          proposal.view.level node = view.level node ∧
          (proposal.view.level edge.node < view.level node ∨
            proposal.view.level edge.node = view.level node ∧
              rule = .threeLayerDistributivity ∧ Rule.Tight view node) := by
  have bookkeeping := reachable.bookkeeping
  obtain ⟨view, seen⟩ := exists_ofNetwork bookkeeping.toReferences acyclic
  have current := current_of_ofNetwork bookkeeping reachable.ports seen
  obtain rfl := network_of_ofNetwork seen
  refine ⟨view, seen, current.truthful.levels, ?_⟩
  intro rule node
  rcases propose_of_current current rule node with
    ⟨records, proposed, _⟩ | ⟨edge, next, records, proposed, _, _, recipe, found, _, builds⟩
  · exact ⟨_, proposed, current.truthful.levels, nofun⟩
  · refine ⟨_, proposed, builds.tracks.levels, ?_⟩
    intro replacement proposes
    cases proposes
    have references := bookkeeping.toReferences
    obtain ⟨fanins, stored⟩ := isGate_iff.mp (Rule.computes_of_examine references found).isGate
    refine ⟨builds.grown.level node (lt_size_of_gateFanins? stored), ?_⟩
    rcases Rule.height_lt_or_tight current.truthful references found with lower | tight
    · exact .inl (Nat.lt_of_le_of_lt builds.height lower)
    · have suits := Rule.suits_of_examine current.truthful references found
      rcases Nat.lt_or_eq_of_le (Nat.le_trans builds.height suits.height) with lower | equal
      · exact .inl lower
      · exact .inr ⟨equal, tight⟩

/-- Three layers of gates over inputs become one level lower. -/
theorem propose_gains_threeLayers : ∃ aig view proposal edge, Aig.Reachable aig ∧
    aig.Acyclic ∧ DepthView.ofNetwork aig = .ok view ∧ view.level 9 = 4 ∧
      propose .threeLayerDistributivity view 9 = .ok proposal ∧
      proposal.replacement = some edge ∧ proposal.view.level edge.node < view.level 9 := by
  have checked : (do
      let ended ← Aig.empty.session [.addInput, .addInput, .addInput, .addInput, .addInput,
        .createAnd (.plain 4) (.plain 5), .createAnd (.plain 6) (.plain 3),
        .createAnd (.plain 2) (Edge.plain 7).not, .createAnd (.plain 1) (Edge.plain 8).not,
        .addOutput (.plain 9)]
      let view ← DepthView.ofNetwork ended.1
      let proposal ← propose .threeLayerDistributivity view 9
      return view.level 9 == 4 && proposal.replacement == some (Edge.plain 13).not &&
        proposal.view.level 13 == 3) = .ok true := by
    decide +kernel
  obtain ⟨⟨aig, log⟩, ended, rest⟩ := bind_eq_ok.mp checked
  obtain ⟨view, seen, rest⟩ := bind_eq_ok.mp rest
  obtain ⟨proposal, proposed, results⟩ := bind_eq_ok.mp rest
  simp only [pure_eq_ok, Bool.and_eq_true, beq_iff_eq] at results
  obtain ⟨⟨high, proposes⟩, low⟩ := results
  have reachable : aig.Reachable := evolves_of_session ended
  have acyclic := Network.acyclic_of_ofNetwork seen
  obtain ⟨view', seen', _, gains⟩ := propose_gains reachable acyclic
  cases seen.symm.trans seen'
  obtain ⟨proposal', proposed', _, gain⟩ := gains .threeLayerDistributivity 9
  cases proposed.symm.trans proposed'
  obtain ⟨_, lower | ⟨equal, _⟩⟩ := gain _ proposes
  · exact ⟨aig, view, proposal, _, reachable, acyclic, seen, high, proposed, proposes, lower⟩
  · rw [high] at equal
    exact absurd (low.symm.trans equal) (by decide)

/-- Both ways of having no level to spare come up, on the outputs of one
network: below node 14 `b` is next below the branch, and below node 16 `a` is
two levels below it.  Either replacement is as high as the node. -/
theorem not_propose_gains : ∃ aig view, Aig.Reachable aig ∧ aig.Acyclic ∧
    aig.checkIntegrity = .ok () ∧ DepthView.ofNetwork aig = .ok view ∧
      ∀ node ∈ [14, 16], ∃ proposal edge,
        propose .threeLayerDistributivity view node = .ok proposal ∧
        proposal.replacement = some edge ∧
        ¬ proposal.view.level edge.node < view.level node := by
  have checked : (do
      let ended ← Aig.empty.session [.addInput, .addInput, .addInput, .addInput, .addInput,
        .addInput, .addInput, .addInput,
        .createAnd (.plain 3) (.plain 4), .createAnd (.plain 9) (.plain 2),
        .createAnd (.plain 5) (.plain 6), .createAnd (.plain 11) (.plain 7),
        .createAnd (.plain 12) (Edge.plain 10).not, .createAnd (.plain 1) (Edge.plain 13).not,
        .createAnd (.plain 8) (Edge.plain 10).not, .createAnd (.plain 11) (Edge.plain 15).not,
        .addOutput (.plain 14), .addOutput (.plain 16)]
      let _ ← ended.1.checkIntegrity
      let view ← DepthView.ofNetwork ended.1
      let first ← propose .threeLayerDistributivity view 14
      let second ← propose .threeLayerDistributivity view 16
      return first.replacement.any
          (fun edge : Edge => view.level 14 ≤ first.view.level edge.node) &&
        second.replacement.any
          (fun edge : Edge => view.level 16 ≤ second.view.level edge.node)) = .ok true := by
    decide +kernel
  obtain ⟨⟨aig, log⟩, ended, rest⟩ := bind_eq_ok.mp checked
  obtain ⟨_, sound, rest⟩ := bind_eq_ok.mp rest
  obtain ⟨view, seen, rest⟩ := bind_eq_ok.mp rest
  obtain ⟨first, proposedFirst, rest⟩ := bind_eq_ok.mp rest
  obtain ⟨second, proposedSecond, results⟩ := bind_eq_ok.mp rest
  simp only [pure_eq_ok, Bool.and_eq_true, Option.any_eq_true, decide_eq_true_eq] at results
  obtain ⟨⟨firstEdge, firstProposes, firstHigh⟩, secondEdge, secondProposes, secondHigh⟩ := results
  refine ⟨aig, view, evolves_of_session ended, Network.acyclic_of_ofNetwork seen, sound, seen, ?_⟩
  intro node member
  rcases List.mem_pair.mp member with rfl | rfl
  · exact ⟨first, firstEdge, proposedFirst, firstProposes, Nat.not_lt_of_le firstHigh⟩
  · exact ⟨second, secondEdge, proposedSecond, secondProposes, Nat.not_lt_of_le secondHigh⟩

end Rewriting

end AndInverter
