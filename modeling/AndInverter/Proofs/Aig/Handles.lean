import AndInverter.Proofs.Aig.Intact
import AndInverter.Proofs.Aig.Sessions

/-!
# Handles

An identifier is a handle for the life of a store.  Operations only append to
the arena and to the list of inputs, they leave the constant and the inputs as
they are, and a gate changes its fanins or dies for good.
-/

namespace AndInverter

namespace Aig

/-- Whatever an identifier stood for in one store, it stands for in a later
one, unless it was a gate and has died. -/
structure Keeps (aig next : Aig) : Prop where
  size : aig.size ≤ next.size
  /-- An identifier that was handed out and names no node never names one
  again. -/
  dead : ∀ id, id < aig.size → aig.isDead id = true → next.isDead id = true
  constant : next.node? 0 = some .constant
  input : ∀ id ∈ aig.inputs, next.node? id = some (.input id)
  inputs : ∃ added, next.inputs = aig.inputs ++ added ∧ ∀ id ∈ added, aig.size ≤ id
  gate : ∀ id, aig.isGate id = true →
    next.isDead id = true ∨ ∃ fanins, next.node? id = some (.gate id fanins)

theorem Ports.keeps_refl {aig : Aig} (ports : aig.Ports) : aig.Keeps aig := by
  refine {
    size := Nat.le_refl _
    dead := fun _ _ gone => gone
    constant := ports.constant
    input := ports.inputs
    inputs := ⟨#[], Array.append_empty.symm, by simp⟩
    gate := ?_ }
  intro id isGate
  obtain ⟨fanins, stored⟩ := isGate_iff.mp isGate
  obtain ⟨name, present⟩ := gateFanins?_eq_some_iff.mp stored
  have own : name = id := ports.position id _ present
  exact .inr ⟨fanins, own ▸ present⟩

theorem Keeps.trans {aig middle next : Aig} (earlier : aig.Keeps middle)
    (later : middle.Keeps next) : aig.Keeps next := by
  obtain ⟨first, registered, above⟩ := earlier.inputs
  obtain ⟨second, registeredLater, aboveLater⟩ := later.inputs
  refine {
    size := Nat.le_trans earlier.size later.size
    dead := fun id inside gone =>
      later.dead id (Nat.lt_of_lt_of_le inside earlier.size) (earlier.dead id inside gone)
    constant := later.constant
    input := ?_
    inputs := ⟨first ++ second, ?_, ?_⟩
    gate := ?_ }
  · intro id listed
    apply later.input id
    rw [registered]
    exact Array.mem_append.mpr (.inl listed)
  · rw [registeredLater, registered, Array.append_assoc]
  · intro id listed
    rcases Array.mem_append.mp listed with early | late
    · exact above id early
    · exact Nat.le_trans earlier.size (aboveLater id late)
  · intro id isGate
    rcases earlier.gate id isGate with gone | ⟨fanins, present⟩
    · obtain ⟨_, stored⟩ := isGate_iff.mp isGate
      have inside := Nat.lt_of_lt_of_le (lt_size_of_gateFanins? stored) earlier.size
      exact .inl (later.dead id inside gone)
    · exact later.gate id (isGate_iff.mpr ⟨fanins, gateFanins?_eq_some_iff.mpr ⟨id, present⟩⟩)

theorem Edit.keeps {olds : Nat → Prop} {aig next : Aig} (edit : Edit olds aig next)
    (ports : aig.Ports) : aig.Keeps next := by
  have laterPorts := edit.ports ports
  have same := ports.keeps_refl
  rcases edit.gates_or_input with rfl | ⟨inputs, nodes⟩
  · refine {
      size := edit.size_le
      dead := fun id inside gone => edit.stays_dead inside gone
      constant := laterPorts.constant
      input := fun id listed => laterPorts.inputs id (Array.mem_push.mpr (.inl listed))
      inputs := ⟨#[aig.size], rfl, by simp⟩
      gate := ?_ }
    intro id isGate
    obtain ⟨_, stored⟩ := isGate_iff.mp isGate
    rw [isDead, node?_addInput, if_neg (Nat.ne_of_lt (lt_size_of_gateFanins? stored))]
    exact same.gate id isGate
  · refine {
      size := edit.size_le
      dead := fun id inside gone => edit.stays_dead inside gone
      constant := laterPorts.constant
      input := fun id listed => laterPorts.inputs id (inputs ▸ listed)
      inputs := ⟨#[], inputs.trans Array.append_empty.symm, by simp⟩
      gate := ?_ }
    intro id isGate
    rcases nodes id with untouched | ⟨_, gone | changed⟩
    · rw [isDead, untouched]
      exact same.gate id isGate
    · exact .inl (by simp [isDead, gone])
    · exact .inr changed

theorem Edits.keeps {olds : Nat → Prop} {aig next : Aig} (edits : Edits olds aig next)
    (ports : aig.Ports) : aig.Keeps next := by
  have kept : next.Ports ∧ aig.Keeps next :=
    edits.keep (fun store => store.Ports ∧ aig.Keeps store)
      (fun edit ⟨here, keeps⟩ => ⟨edit.ports here, keeps.trans (edit.keeps here)⟩)
      ⟨ports, ports.keeps_refl⟩
  exact kept.2

private theorem inputs_cleanup (aig : Aig) : aig.cleanup.inputs = aig.inputs :=
  cleanup_keep (fun store => store.inputs = aig.inputs)
    (fun _ same => (inputs_removeGate ..).trans same) rfl

/-- A run leaves the inputs alone: any valuation of the store it starts from
continues to its last one, with the same inputs. -/
theorem inputs_optimize {fuel : Nat} {parameters : Parameters} {aig : Aig}
    {run : Rewriting.Run Aig} (reachable : aig.Reachable)
    (optimized : Rewriting.optimize fuel parameters aig = .ok run) :
    run.view.network.inputs = aig.inputs := by
  obtain ⟨view, seen, repeats⟩ := Rewriting.optimize_repeats optimized
  have acyclic := Network.acyclic_of_ofNetwork seen
  obtain rfl := Rewriting.network_of_ofNetwork seen
  obtain ⟨valuation, satisfies, _⟩ := exists_valuation reachable.bookkeeping.toReferences
    reachable.ports acyclic (fun _ => false)
  obtain ⟨_, continues⟩ := repeats.continues reachable.bookkeeping reachable.ports satisfies
  exact continues.inputs

theorem Step.inputs {allowed : Aig → Substitution → Prop} {aig next : Aig}
    (reachable : aig.Reachable) (step : Step allowed aig next) :
    next = aig.addInput.2 ∧ next.inputs = aig.inputs.push aig.size ∨
      next.inputs = aig.inputs := by
  cases step with
  | addInput => exact .inl ⟨rfl, rfl⟩
  | addOutput added =>
      obtain ⟨_, _, result⟩ := bind_eq_ok.mp added
      cases result
      exact .inr rfl
  | @createAnd _ left right edge created =>
      obtain ⟨_, _, outcome⟩ := createAnd_eq created
      have interface := conjoin_interface aig left right
      rw [outcome] at interface
      exact .inr interface.1
  | cleanup => exact .inr (inputs_cleanup aig)
  | substitute _ substituted => exact .inr (substitute_drains substituted).inputs
  | optimize optimized => exact .inr (inputs_optimize reachable optimized)

/-- A conjunction reads a node that was there, or the next identifier. -/
theorem createAnd_handle {aig next : Aig} {left right edge : Edge} (references : aig.References)
    (ports : aig.Ports) (created : aig.createAnd left right = .ok (edge, next)) :
    next = aig ∧ aig.isDead edge.node = false ∨
      edge = .plain aig.size ∧ next.size = aig.size + 1 := by
  obtain ⟨leftLive, rightLive, outcome⟩ := createAnd_eq created
  rcases aig.conjoin_cases left right with
    ⟨reduct, reduced, result⟩ | ⟨gate, found, result⟩ | ⟨_, _, result⟩
  · rw [outcome] at result
    cases result
    exact .inl ⟨rfl, live_of_trivial? ports (live_ordered leftLive rightLive).2 reduced⟩
  · rw [outcome] at result
    cases result
    exact .inl ⟨rfl, isDead_of_gateFanins? (references.table_sound _ gate found)⟩
  · rw [outcome] at result
    cases result
    exact .inr ⟨rfl, size_addGate ..⟩

/-- Whatever operations follow, handles last: a conjunction that is built takes
the next identifier, and only a new input, at the end, extends the list of
inputs. -/
theorem handles_stable {aig : Aig} (reachable : aig.Reachable) :
    (∀ left right edge next, aig.createAnd left right = .ok (edge, next) →
        next = aig ∧ aig.isDead edge.node = false ∨
          edge = .plain aig.size ∧ next.size = aig.size + 1) ∧
      (∀ allowed next, Step allowed aig next →
        next = aig.addInput.2 ∧ next.inputs = aig.inputs.push aig.size ∨
          next.inputs = aig.inputs) ∧
      ∀ next, Evolves aig next → aig.Keeps next := by
  refine ⟨?_, ?_, ?_⟩
  · intro left right edge next created
    exact createAnd_handle reachable.bookkeeping.toReferences reachable.ports created
  · intro allowed next step
    exact step.inputs reachable
  · intro next evolves
    exact evolves.edits.keeps reachable.ports

/-- An input is replaced, two gates die, and the next input takes an identifier
of its own. -/
theorem handles_stable_merging : ∃ aig next : Aig, aig.Reachable ∧ Evolves aig next ∧
    aig.size = 5 ∧ next.size = 6 ∧ aig.isGate 3 = true ∧ next.isDead 3 = true ∧
      next.isDead 5 = false ∧ aig.Keeps next := by
  have checked : (do
      let former ← Aig.empty.session [.addInput, .addInput,
        .createAnd (.plain 1) (.plain 2), .createAnd (.plain 3) (Edge.plain 1).not,
        .addOutput (.plain 4)]
      let later ← former.1.session [.substitute 5 1 (.plain 2), .addInput]
      return decide (former.1.size = 5) && decide (later.1.size = 6) && former.1.isGate 3 &&
        later.1.isDead 3 && !later.1.isDead 5) = .ok true := by
    decide +kernel
  obtain ⟨⟨aig, log⟩, ended, rest⟩ := bind_eq_ok.mp checked
  obtain ⟨⟨next, log'⟩, continued, results⟩ := bind_eq_ok.mp rest
  simp only [pure_eq_ok, Bool.and_eq_true, decide_eq_true_eq, Bool.not_eq_true'] at results
  obtain ⟨⟨⟨⟨before, after⟩, isGate⟩, dead⟩, live⟩ := results
  have reachable : aig.Reachable := evolves_of_session ended
  have evolves := evolves_of_session continued
  exact ⟨aig, next, reachable, evolves, before, after, isGate, dead, live,
    (handles_stable reachable).2.2 next evolves⟩

end Aig

end AndInverter
