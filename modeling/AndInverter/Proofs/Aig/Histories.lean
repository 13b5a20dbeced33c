import AndInverter.Aig.History
import AndInverter.Proofs.Aig.Bookkeeping
import AndInverter.Proofs.Aig.Ports
import AndInverter.Proofs.Rewriting.Runs
import AndInverter.Proofs.Substitution.Worklist

/-!
# Laws of reachable stores

Every operation is made of elementary changes, rewriting included.  So every
graph that operations lead to keeps its books, its constant and its inputs.
-/

namespace AndInverter

namespace Rewriting

variable {olds : Nat → Prop}

theorem build_edits {recipe : Recipe} {view next : DepthView Aig} {edge : Edge}
    (built : recipe.build view = .ok (edge, next)) : Aig.Edits olds view.network next.network := by
  induction recipe generalizing view next edge with
  | signal signal =>
      cases built
      exact .refl
  | and left right leftInduction rightInduction =>
      obtain ⟨leftEdge, middle, rightEdge, last, builtLeft, builtRight, created⟩ :=
        build_and_eq_ok.mp built
      have edits := (leftInduction builtLeft).trans (rightInduction builtRight)
      exact edits.trans (Aig.createAnd_edits (network_of_createAnd created))
  | not operand induction =>
      obtain ⟨inner, builtOperand, rfl⟩ := build_not_eq_ok.mp built
      exact induction builtOperand

theorem build_bookkeeping {recipe : Recipe} {view next : DepthView Aig} {edge : Edge}
    (built : recipe.build view = .ok (edge, next)) (bookkeeping : view.network.Bookkeeping) :
    next.network.Bookkeeping := by
  have edits : Aig.Edits (fun _ => True) view.network next.network := build_edits built
  exact edits.bookkeeping bookkeeping

theorem build_ports {recipe : Recipe} {view next : DepthView Aig} {edge : Edge}
    (built : recipe.build view = .ok (edge, next)) (ports : view.network.Ports) :
    next.network.Ports := by
  have edits : Aig.Edits (fun _ => True) view.network next.network := build_edits built
  exact edits.ports ports

theorem propose_edits {rule : Rule} {view : DepthView Aig} {node : Nat}
    {proposal : Proposal Aig} (proposed : propose rule view node = .ok proposal) :
    Aig.Edits olds view.network proposal.view.network := by
  rcases propose_cases proposed with ⟨_, same⟩ | ⟨recipe, edge, _, built, _⟩
  · rw [same]
    exact .refl
  · exact build_edits built

theorem Explores.edits {view next : DepthView Aig} (explores : Explores view next) :
    Aig.Edits olds view.network next.network := by
  induction explores with
  | refl => exact .refl
  | tail _ declines induction =>
      obtain ⟨rule, node, records, proposed⟩ := declines
      exact induction.trans (propose_edits proposed)

theorem Fires.edits {fuel : Nat} {rule : Rule} {view next : DepthView Aig}
    {changes : List Change} (fires : Fires fuel rule view changes next) :
    Aig.Edits (Substituted changes) view.network next.network := by
  obtain ⟨node, proposal, edge, proposed, _, substituted⟩ := fires
  have drains := Aig.substitute_drains (network_of_substitute substituted)
  exact (propose_edits proposed).trans drains.edits

theorem Repeats.edits {fuel : Nat} {view next : DepthView Aig} {changes : List Change}
    (repeats : Repeats fuel view changes next) :
    Aig.Edits (Substituted changes) view.network next.network := by
  induction repeats with
  | stop view => exact .refl
  | last explores => exact explores.edits
  | @again view middle replaced fresh next rule changes later explores fires refreshed _
      induction =>
      rw [network_of_refresh refreshed] at induction
      have first := fires.edits.mono fun _ =>
        Substituted.mono (List.subset_append_left changes later)
      have rest := induction.mono fun _ =>
        Substituted.mono (List.subset_append_right changes later)
      exact (explores.edits.trans first).trans rest

theorem optimize_edits {fuel : Nat} {parameters : Parameters} {aig : Aig} {run : Run Aig}
    (optimized : optimize fuel parameters aig = .ok run) :
    Aig.Edits (Substituted (changesOf run.records)) aig run.view.network := by
  obtain ⟨view, seen, repeats⟩ := optimize_repeats optimized
  have edits := repeats.edits
  rwa [network_of_ofNetwork seen] at edits

end Rewriting

namespace Aig

theorem replaceUses_bookkeeping {aig : Aig} {substitution : Substitution}
    (bookkeeping : aig.Bookkeeping) (applies : aig.applies substitution = true) :
    (aig.replaceUses substitution).aig.Bookkeeping := by
  have edits : Edits (fun _ => True) aig (aig.replaceUses substitution).aig :=
    replaceUses_edits trivial applies
  exact edits.bookkeeping bookkeeping

theorem Drains.inputs {aig next : Aig} {pending : List Substitution} {changes : List Change}
    (drains : Drains aig pending next changes) : next.inputs = aig.inputs := by
  induction drains with
  | done aig => rfl
  | skip _ _ induction => exact induction
  | @perform aig next substitution pending later applies _ induction =>
      have redirected : (aig.redirected substitution).inputs = aig.inputs :=
        redirected_keep (fun store _ => store.inputs = aig.inputs)
          (fun _ _ _ _ same => same)
          (fun _ _ _ _ same => (inputs_setFanins ..).trans same) applies rfl
      have reclaimed : ((aig.redirected substitution).reclaim [substitution.old]).1.inputs =
          aig.inputs :=
        reclaim_keep (fun store => store.inputs = aig.inputs)
          (fun _ same => (inputs_removeGate ..).trans same) redirected
      exact induction.trans reclaimed

/-- Every operation is made of elementary changes. -/
theorem Step.edits {allowed : Aig → Substitution → Prop} {aig next : Aig}
    (step : Step allowed aig next) : ∃ olds, Edits olds aig next := by
  cases step with
  | addInput => exact ⟨fun _ => False, .single (.addInput aig)⟩
  | addOutput added => exact ⟨fun _ => False, addOutput_edits added⟩
  | createAnd created => exact ⟨fun _ => False, createAnd_edits created⟩
  | cleanup => exact ⟨fun _ => False, cleanup_edits aig⟩
  | substitute _ substituted => exact ⟨_, (substitute_drains substituted).edits⟩
  | optimize optimized => exact ⟨_, Rewriting.optimize_edits optimized⟩

theorem Evolves.edits {aig next : Aig} (evolves : Evolves aig next) :
    Edits (fun _ => True) aig next := by
  induction evolves with
  | refl => exact .refl
  | tail _ step induction =>
      obtain ⟨olds, edits⟩ := step.edits
      exact induction.trans (edits.mono fun _ _ => trivial)

theorem Reachable.bookkeeping {aig : Aig} (reachable : aig.Reachable) : aig.Bookkeeping :=
  (Evolves.edits reachable).bookkeeping bookkeeping_empty

theorem Reachable.ports {aig : Aig} (reachable : aig.Reachable) : aig.Ports :=
  (Evolves.edits reachable).ports ports_empty

end Aig

end AndInverter
