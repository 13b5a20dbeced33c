import AndInverter.Proofs.DepthView.Refreshing
import AndInverter.Proofs.Rewriting.Extension
import AndInverter.Proofs.Simulation.Lanes

/-!
# Rewriting preserves the circuit

A run that returns has sorted the gates before each pass, and building closes
no cycle, so the network at its end is acyclic like the one it started from.
Both evaluate every output to the same value, and simulation gives the same
words.
-/

namespace AndInverter

namespace Aig

theorem acyclic_addGate {aig : Aig} (references : aig.References) {fanins : Fanins}
    (firstLive : aig.isDead fanins.first.node = false)
    (secondLive : aig.isDead fanins.second.node = false) (acyclic : aig.Acyclic) :
    (aig.addGate fanins).2.Acyclic := by
  have grows := aig.addGate_grows fanins
  intro id cycle
  obtain ⟨child, reads, back⟩ := Relation.TransGen.head'_iff.mp cycle
  have childLive : aig.isDead child = false := by
    obtain ⟨pair, stored, sides⟩ := reads_iff.mp reads
    rw [gateFanins?_addGate] at stored
    have live : aig.isDead pair.first.node = false ∧ aig.isDead pair.second.node = false := by
      split at stored
      · cases stored
        exact ⟨firstLive, secondLive⟩
      · exact fanins_live_of_stored references stored
    rcases sides with rfl | rfl
    · exact live.1
    · exact live.2
  have former := grows.reads_of_live (grows.live_of_reaches references childLive back) reads
  exact acyclic id (.head' former (grows.reaches_of_live references childLive back))

theorem acyclic_createAnd {aig next : Aig} {left right edge : Edge}
    (references : aig.References) (created : aig.createAnd left right = .ok (edge, next))
    (acyclic : aig.Acyclic) : next.Acyclic := by
  obtain ⟨leftLive, rightLive, outcome⟩ := createAnd_eq created
  obtain ⟨firstLive, secondLive⟩ := live_ordered leftLive rightLive
  have same : next = (aig.conjoin left right).2 := by rw [outcome]
  rw [same]
  rcases aig.conjoin_cases left right with
    ⟨_, _, outcome⟩ | ⟨_, _, outcome⟩ | ⟨_, _, outcome⟩
  · rwa [outcome]
  · rwa [outcome]
  · rw [outcome]
    exact acyclic_addGate references firstLive secondLive acyclic

end Aig

namespace Rewriting

open Aig

theorem build_acyclic {recipe : Recipe} {view next : DepthView Aig} {edge : Edge}
    (built : recipe.build view = .ok (edge, next)) (bookkeeping : view.network.Bookkeeping)
    (acyclic : view.network.Acyclic) : next.network.Acyclic := by
  induction recipe generalizing view next edge with
  | signal signal =>
      cases built
      exact acyclic
  | and left right leftInduction rightInduction =>
      obtain ⟨leftEdge, middle, rightEdge, last, builtLeft, builtRight, created⟩ :=
        build_and_eq_ok.mp built
      have middleBooks := build_bookkeeping builtLeft bookkeeping
      have lastBooks := build_bookkeeping builtRight middleBooks
      have middleAcyclic := leftInduction builtLeft bookkeeping acyclic
      have lastAcyclic := rightInduction builtRight middleBooks middleAcyclic
      exact acyclic_createAnd lastBooks.toReferences (network_of_createAnd created) lastAcyclic
  | not operand induction =>
      obtain ⟨inner, builtOperand, rfl⟩ := build_not_eq_ok.mp built
      exact induction builtOperand bookkeeping acyclic

theorem Explores.acyclic {view next : DepthView Aig} (explores : Explores view next)
    (bookkeeping : view.network.Bookkeeping) (acyclic : view.network.Acyclic) :
    next.network.Acyclic := by
  induction explores with
  | refl => exact acyclic
  | @tail middle next explored declines induction =>
      obtain ⟨rule, node, records, proposed⟩ := declines
      have edits : Edits (fun _ => True) view.network middle.network :=
        Explores.edits explored
      rcases propose_cases proposed with ⟨_, same⟩ | ⟨recipe, edge, _, built, _⟩
      · rw [show next = middle from same]
        exact induction
      · exact build_acyclic built (edits.bookkeeping bookkeeping) induction

/-- The network at the end of a run is acyclic. -/
theorem Repeats.acyclic {fuel : Nat} {view next : DepthView Aig} {changes : List Change}
    (repeats : Repeats fuel view changes next) (bookkeeping : view.network.Bookkeeping)
    (acyclic : view.network.Acyclic) : next.network.Acyclic := by
  induction repeats with
  | stop view => exact acyclic
  | last explores => exact explores.acyclic bookkeeping acyclic
  | @again view middle replaced fresh next rule changes later explores fires refreshed _
      induction =>
      have explorations : Edits (fun _ => True) view.network middle.network := explores.edits
      have books := fires.edits.bookkeeping (explorations.bookkeeping bookkeeping)
      have sorted := Network.acyclic_of_ofNetwork refreshed
      rw [network_of_refresh refreshed] at induction
      exact induction books sorted

end Rewriting

namespace Aig

private theorem words_ext {width : Nat} {first second : List (BitVec width)}
    (length : first.length = second.length)
    (lanes : ∀ lane, lane < width →
      first.map (·.getLsbD lane) = second.map (·.getLsbD lane)) : first = second := by
  apply List.ext_getElem length
  intro index inFirst inSecond
  apply BitVec.eq_of_getLsbD_eq
  intro lane inside
  have same := congrArg (·[index]?) (lanes lane inside)
  simpa [inFirst, inSecond] using same

/-- A store in which every valuation of another one continues computes the
same words. -/
theorem simulate_eq_of_continues {aig next : Aig} (references : aig.References)
    (ports : aig.Ports) (acyclic : aig.Acyclic) (laterReferences : next.References)
    (laterPorts : next.Ports) (laterAcyclic : next.Acyclic) (inputs : next.inputs = aig.inputs)
    (continued : ∀ valuation, aig.Satisfies valuation →
      ∃ extended, aig.Continues valuation next extended)
    (patterns : List (BitVec 64)) : next.simulate patterns = aig.simulate patterns := by
  by_cases matching : patterns.length = aig.inputs.size
  · obtain ⟨words, computed, lanes⟩ := exists_simulate references ports acyclic matching
    obtain ⟨laterWords, laterComputed, laterLanes⟩ :=
      exists_simulate laterReferences laterPorts laterAcyclic (inputs ▸ matching)
    rw [computed, laterComputed]
    have agree : ∀ lane, lane < 64 →
        laterWords.map (·.getLsbD lane) = words.map (·.getLsbD lane) := by
      intro lane inside
      obtain ⟨valuation, satisfies, assigns⟩ :=
        exists_valuation references ports acyclic (laneAssignment patterns lane)
      obtain ⟨extended, continues⟩ := continued valuation satisfies
      rw [lanes lane valuation inside satisfies assigns,
        laterLanes lane extended inside continues.satisfies (continues.assigns ports assigns)]
      have outputs := congrArg Array.toList continues.outputs
      rwa [Array.toList_map, Array.toList_map] at outputs
    have length : laterWords.length = words.length := by
      have same := congrArg List.length (agree 0 (by decide))
      rwa [List.length_map, List.length_map] at same
    rw [words_ext length agree]
  · rw [simulate, simulate, if_neg matching, if_neg (inputs ▸ matching), inputs]

theorem edgeEvaluates_output_iff {aig : Aig} (references : aig.References)
    (ports : aig.Ports) (acyclic : aig.Acyclic) {assignment valuation : Nat → Bool}
    (satisfies : aig.Satisfies valuation) (assigns : aig.Assigns assignment valuation)
    {index : Nat} {output : Edge} (present : aig.outputs[index]? = some output) (value : Bool) :
    aig.EdgeEvaluates assignment output value ↔ value = output.value valuation := by
  have live := references.outputs_live output (Array.mem_iff_getElem?.mpr ⟨index, present⟩)
  rw [edgeEvaluates_iff references ports acyclic satisfies assigns live]
  exact eq_comm

theorem Continues.output_value {aig next : Aig} {valuation extended : Nat → Bool}
    (continues : aig.Continues valuation next extended) {index : Nat} {output output' : Edge}
    (present : aig.outputs[index]? = some output)
    (later : next.outputs[index]? = some output') :
    output'.value extended = output.value valuation := by
  have same := congrArg (·[index]?) continues.outputs
  simpa [Array.getElem?_map, present, later] using same

end Aig

namespace Rewriting

open Aig

/-- Whatever rules are enabled and however many rewrites are allowed, a run
that returns leaves the inputs alone, and every output computes the function
it computed before.  Evaluation and simulation have results on both sides:
the run has found the gates free of cycles. -/
theorem optimize_preserves {fuel : Nat} {parameters : Parameters} {aig : Aig} {run : Run Aig}
    (reachable : aig.Reachable) (optimized : optimize fuel parameters aig = .ok run) :
    run.view.network.inputs = aig.inputs ∧
      run.view.network.outputs.size = aig.outputs.size ∧
      (∀ (assignment : Nat → Bool) (index : Nat) (output output' : Edge),
        aig.outputs[index]? = some output → run.view.network.outputs[index]? = some output' →
        ∃ value, (∀ other, aig.EdgeEvaluates assignment output other ↔ other = value) ∧
          ∀ other, run.view.network.EdgeEvaluates assignment output' other ↔ other = value) ∧
      ∀ patterns : List (BitVec 64),
        run.view.network.simulate patterns = aig.simulate patterns ∧
          (patterns.length = aig.inputs.size → ∃ words, aig.simulate patterns = .ok words) := by
  obtain ⟨view, seen, repeats⟩ := optimize_repeats optimized
  have same := network_of_ofNetwork seen
  have books : view.network.Bookkeeping := same ▸ reachable.bookkeeping
  have ports : view.network.Ports := same ▸ reachable.ports
  have acyclic : view.network.Acyclic := same ▸ Network.acyclic_of_ofNetwork seen
  have laterBooks := repeats.edits.bookkeeping books
  have laterPorts := repeats.edits.ports ports
  have laterAcyclic := repeats.acyclic books acyclic
  have continued : ∀ valuation, view.network.Satisfies valuation →
      ∃ extended, view.network.Continues valuation run.view.network extended :=
    fun valuation satisfies => repeats.continues books ports satisfies
  rw [same] at books ports acyclic continued
  obtain ⟨start, satisfies, _⟩ :=
    exists_valuation books.toReferences ports acyclic (fun _ => false)
  obtain ⟨_, continues⟩ := continued start satisfies
  have inputs := continues.inputs
  have sizes := congrArg Array.size continues.outputs
  rw [Array.size_map, Array.size_map] at sizes
  refine ⟨inputs, sizes, ?_, ?_⟩
  · intro assignment index output output' present later
    obtain ⟨valuation, satisfies, assigns⟩ :=
      exists_valuation books.toReferences ports acyclic assignment
    obtain ⟨extended, continues⟩ := continued valuation satisfies
    refine ⟨output.value valuation, ?_, ?_⟩
    · exact edgeEvaluates_output_iff books.toReferences ports acyclic satisfies assigns present
    · rw [← continues.output_value present later]
      exact edgeEvaluates_output_iff laterBooks.toReferences laterPorts laterAcyclic
        continues.satisfies (continues.assigns ports assigns) later
  · intro patterns
    constructor
    · exact simulate_eq_of_continues books.toReferences ports acyclic laterBooks.toReferences
        laterPorts laterAcyclic inputs continued patterns
    · intro matching
      obtain ⟨words, computed, _⟩ :=
        exists_simulate books.toReferences ports acyclic matching
      exact ⟨words, computed⟩

/-- A chain of three gates is balanced. -/
theorem optimize_preserves_chain : ∃ aig run, Aig.Reachable aig ∧
    optimize 20 {} aig = .ok run ∧ run.statistics.associativity = 1 ∧
      run.view.network.outputs.size = aig.outputs.size ∧
      ∀ patterns : List (BitVec 64),
        run.view.network.simulate patterns = aig.simulate patterns := by
  have checked : (do
      let ended ← Aig.empty.session [.addInput, .addInput, .addInput, .addInput,
        .createAnd (.plain 1) (.plain 2), .createAnd (.plain 5) (.plain 3),
        .createAnd (.plain 6) (.plain 4), .addOutput (Edge.plain 7).not]
      let run ← optimize 20 {} ended.1
      return run.statistics.associativity == 1) = .ok true := by
    decide +kernel
  obtain ⟨⟨aig, log⟩, ended, rest⟩ := bind_eq_ok.mp checked
  obtain ⟨run, optimized, results⟩ := bind_eq_ok.mp rest
  have reachable : aig.Reachable := evolves_of_session ended
  obtain ⟨_, outputs, _, words⟩ := optimize_preserves reachable optimized
  exact ⟨aig, run, reachable, optimized, by simpa using results, outputs,
    fun patterns => (words patterns).1⟩

end Rewriting

end AndInverter
