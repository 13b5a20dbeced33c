import AndInverter.Proofs.Rewriting.Identities
import AndInverter.Proofs.Substitution.Soundness

/-!
# Valuations along a run

A run adds gates and substitutes gates by edges of the same value.  A
valuation that satisfies the store before a step extends to one that
satisfies it afterwards, with the same values for the nodes there were and
for the outputs.
-/

namespace AndInverter

namespace Aig

def Grows (aig next : Aig) : Prop :=
  ∀ id node, aig.node? id = some node → next.node? id = some node

theorem Grows.trans {aig middle next : Aig} (first : aig.Grows middle)
    (second : middle.Grows next) : aig.Grows next := by
  intro id node stored
  exact second id node (first id node stored)

theorem Grows.live {aig next : Aig} (grows : aig.Grows next) {id : Nat}
    (live : aig.isDead id = false) : next.isDead id = false := by
  obtain ⟨node, stored⟩ := isDead_eq_false_iff.mp live
  exact isDead_eq_false_iff.mpr ⟨node, grows id node stored⟩

theorem Grows.gateFanins? {aig next : Aig} (grows : aig.Grows next) {id : Nat} {fanins : Fanins}
    (stored : aig.gateFanins? id = some fanins) : next.gateFanins? id = some fanins := by
  obtain ⟨name, present⟩ := gateFanins?_eq_some_iff.mp stored
  exact gateFanins?_eq_some_iff.mpr ⟨name, grows id _ present⟩

theorem Grows.reads_of_live {aig next : Aig} (grows : aig.Grows next) {source target : Nat}
    (live : aig.isDead source = false) (reads : Network.Reads next source target) :
    Network.Reads aig source target := by
  obtain ⟨node, stored⟩ := isDead_eq_false_iff.mp live
  obtain ⟨fanins, found, sides⟩ := reads_iff.mp reads
  rw [Aig.gateFanins?, grows source node stored, ← stored] at found
  exact reads_iff.mpr ⟨fanins, found, sides⟩

theorem Grows.reaches_of_live {aig next : Aig} (grows : aig.Grows next)
    (references : aig.References) {source target : Nat} (live : aig.isDead source = false)
    (reaches : Network.Reaches next source target) : Network.Reaches aig source target := by
  induction reaches using Relation.ReflTransGen.head_induction_on with
  | refl => exact .refl
  | head reads _ induction =>
      have former := grows.reads_of_live live reads
      exact .head former (induction (references.fanins_live _ _ (reads_iff.mp former)))

theorem Grows.live_of_reaches {aig next : Aig} (grows : aig.Grows next)
    (references : aig.References) {source target : Nat} (live : aig.isDead source = false)
    (reaches : Network.Reaches next source target) : aig.isDead target = false := by
  rcases Relation.ReflTransGen.cases_tail (grows.reaches_of_live references live reaches) with
    rfl | ⟨parent, _, reads⟩
  · exact live
  · exact references.fanins_live parent target (reads_iff.mp reads)

theorem addGate_grows (aig : Aig) (fanins : Fanins) : aig.Grows (aig.addGate fanins).2 := by
  intro id node stored
  rw [node?_addGate, if_neg (Nat.ne_of_lt (lt_size_of_node? stored)), stored]

theorem conjoin_grows (aig : Aig) (left right : Edge) : aig.Grows (aig.conjoin left right).2 := by
  rcases aig.conjoin_cases left right with
    ⟨_, _, outcome⟩ | ⟨_, _, outcome⟩ | ⟨_, _, outcome⟩
  · rw [outcome]
    exact fun _ _ stored => stored
  · rw [outcome]
    exact fun _ _ stored => stored
  · rw [outcome]
    exact addGate_grows aig _

/-- A valuation of a later store continues one of the store before. -/
structure Continues (aig : Aig) (valuation : Nat → Bool) (next : Aig)
    (extended : Nat → Bool) : Prop where
  satisfies : next.Satisfies extended
  inputs : next.inputs = aig.inputs
  size : aig.size ≤ next.size
  agrees : ∀ id, id < aig.size → extended id = valuation id
  outputs : next.outputs.map (·.value extended) = aig.outputs.map (·.value valuation)

private theorem continues_refl {aig : Aig} {valuation : Nat → Bool}
    (satisfies : aig.Satisfies valuation) : aig.Continues valuation aig valuation :=
  { satisfies := satisfies
    inputs := rfl
    size := Nat.le_refl _
    agrees := fun _ _ => rfl
    outputs := rfl }

theorem Continues.trans {aig middle next : Aig} {valuation between extended : Nat → Bool}
    (first : aig.Continues valuation middle between)
    (second : middle.Continues between next extended) :
    aig.Continues valuation next extended := by
  constructor
  · exact second.satisfies
  · exact second.inputs.trans first.inputs
  · exact Nat.le_trans first.size second.size
  · intro id inside
    rw [second.agrees id (Nat.lt_of_lt_of_le inside first.size), first.agrees id inside]
  · exact second.outputs.trans first.outputs

theorem Continues.edge_value {aig next : Aig} {valuation extended : Nat → Bool}
    (continues : aig.Continues valuation next extended) {edge : Edge}
    (live : aig.isDead edge.node = false) : edge.value extended = edge.value valuation := by
  rw [Edge.value, Edge.value, continues.agrees edge.node (lt_size_of_live live)]

theorem Continues.assigns {aig next : Aig} {valuation extended assignment : Nat → Bool}
    (continues : aig.Continues valuation next extended) (ports : aig.Ports)
    (assigns : aig.Assigns assignment valuation) : next.Assigns assignment extended := by
  intro index id registered
  rw [continues.inputs] at registered
  have stored := ports.inputs id (Array.mem_iff_getElem?.mpr ⟨index, registered⟩)
  rw [continues.agrees id (lt_size_of_node? stored)]
  exact assigns index id registered

/-! ### Building -/

theorem continues_addGate {aig : Aig} (references : aig.References) (ports : aig.Ports)
    {valuation : Nat → Bool} (satisfies : aig.Satisfies valuation) {fanins : Fanins}
    (firstLive : aig.isDead fanins.first.node = false)
    (secondLive : aig.isDead fanins.second.node = false) :
    aig.Continues valuation (aig.addGate fanins).2
      (Function.update valuation aig.size (fanins.value valuation)) := by
  have same : ∀ edge : Edge, aig.isDead edge.node = false →
      edge.value (Function.update valuation aig.size (fanins.value valuation)) =
        edge.value valuation := by
    intro edge live
    rw [Edge.value, Function.update_of_ne (Nat.ne_of_lt (lt_size_of_live live)), Edge.value]
  have kept : ∀ pair : Fanins, aig.isDead pair.first.node = false →
      aig.isDead pair.second.node = false →
      pair.value (Function.update valuation aig.size (fanins.value valuation)) =
        pair.value valuation := by
    intro pair first second
    rw [Fanins.value, same _ first, same _ second, Fanins.value]
  constructor
  · constructor
    · have notNew : 0 ≠ aig.size := Nat.ne_of_lt (lt_size_of_node? ports.constant)
      rw [Function.update_of_ne notNew]
      exact satisfies.constant
    · intro id pair stored
      rw [gateFanins?_addGate] at stored
      split at stored
      · rename_i new
        cases stored
        rw [new, Function.update_self, kept fanins firstLive secondLive]
      · rename_i notNew
        obtain ⟨first, second⟩ := fanins_live_of_stored references stored
        rw [Function.update_of_ne notNew, kept pair first second, satisfies.gate id pair stored]
  · rfl
  · rw [size_addGate]
    exact Nat.le_succ _
  · intro id inside
    exact Function.update_of_ne (Nat.ne_of_lt inside) _ _
  · rw [outputs_addGate]
    exact Array.map_congr_left fun output member => same output (references.outputs_live _ member)

theorem live_of_trivial? {aig : Aig} (ports : aig.Ports) {fanins : Fanins} {edge : Edge}
    (secondLive : aig.isDead fanins.second.node = false)
    (reduced : fanins.trivial? = some edge) : aig.isDead edge.node = false := by
  unfold Fanins.trivial? at reduced
  split at reduced
  · cases reduced
    exact isDead_eq_false_iff.mpr ⟨_, ports.constant⟩
  · split at reduced
    · cases reduced
      exact secondLive
    · cases reduced

theorem conjoin_continues {aig : Aig} (references : aig.References) (ports : aig.Ports)
    {valuation : Nat → Bool} (satisfies : aig.Satisfies valuation) {left right : Edge}
    (leftLive : aig.isDead left.node = false) (rightLive : aig.isDead right.node = false) :
    ∃ extended, aig.Continues valuation (aig.conjoin left right).2 extended ∧
      (aig.conjoin left right).1.value extended =
        (left.value valuation && right.value valuation) ∧
      (aig.conjoin left right).2.isDead (aig.conjoin left right).1.node = false := by
  obtain ⟨firstLive, secondLive⟩ := live_ordered leftLive rightLive
  rw [← Fanins.value_ordered]
  rcases aig.conjoin_cases left right with
    ⟨edge, reduced, outcome⟩ | ⟨gate, found, outcome⟩ | ⟨_, _, outcome⟩
  · rw [outcome]
    exact ⟨valuation, continues_refl satisfies,
      Fanins.value_of_trivial? satisfies.constant reduced,
      live_of_trivial? ports secondLive reduced⟩
  · rw [outcome]
    have stored := references.table_sound _ gate found
    refine ⟨valuation, continues_refl satisfies, ?_, isDead_of_gateFanins? stored⟩
    rw [← satisfies.gate gate _ stored]
    simp [Edge.value, Edge.plain]
  · rw [outcome]
    refine ⟨_, continues_addGate references ports satisfies firstLive secondLive, ?_, ?_⟩
    · simp [addGate, Edge.value, Edge.plain]
    · apply isDead_eq_false_iff.mpr
      exact ⟨_, (node?_addGate ..).trans (if_pos rfl)⟩

end Aig

namespace Rewriting

open Aig

private theorem value_congr {recipe : Recipe} {first second : Nat → Bool}
    (same : ∀ signal ∈ recipe.signals, signal.value first = signal.value second) :
    recipe.value first = recipe.value second := by
  induction recipe with
  | signal edge => exact same edge List.mem_cons_self
  | and left right leftInduction rightInduction =>
      rw [Recipe.value, Recipe.value,
        leftInduction fun signal member => same signal (List.mem_append_left _ member),
        rightInduction fun signal member => same signal (List.mem_append_right _ member)]
  | not operand induction => rw [Recipe.value, Recipe.value, induction same]

theorem build_grows {recipe : Recipe} {view next : DepthView Aig} {edge : Edge}
    (built : recipe.build view = .ok (edge, next)) : view.network.Grows next.network := by
  induction recipe generalizing view next edge with
  | signal signal =>
      cases built
      exact fun _ _ stored => stored
  | and left right leftInduction rightInduction =>
      obtain ⟨leftEdge, middle, rightEdge, last, builtLeft, builtRight, created⟩ :=
        build_and_eq_ok.mp built
      have operands := (leftInduction builtLeft).trans (rightInduction builtRight)
      obtain ⟨_, _, outcome⟩ := createAnd_eq (network_of_createAnd created)
      have grows := conjoin_grows last.network leftEdge rightEdge
      rw [outcome] at grows
      exact operands.trans grows
  | not operand induction =>
      obtain ⟨inner, builtOperand, rfl⟩ := build_not_eq_ok.mp built
      exact induction builtOperand

theorem build_continues {recipe : Recipe} {view next : DepthView Aig} {edge : Edge}
    (built : recipe.build view = .ok (edge, next)) (bookkeeping : view.network.Bookkeeping)
    (ports : view.network.Ports)
    (live : ∀ signal ∈ recipe.signals, view.network.isDead signal.node = false)
    {valuation : Nat → Bool} (satisfies : view.network.Satisfies valuation) :
    ∃ extended, view.network.Continues valuation next.network extended ∧
      edge.value extended = recipe.value valuation ∧
      next.network.isDead edge.node = false := by
  induction recipe generalizing view next edge valuation with
  | signal signal =>
      cases built
      exact ⟨valuation, continues_refl satisfies, rfl, live _ List.mem_cons_self⟩
  | and left right leftInduction rightInduction =>
      obtain ⟨leftEdge, middle, rightEdge, last, builtLeft, builtRight, created⟩ :=
        build_and_eq_ok.mp built
      obtain ⟨first, continuesFirst, leftValue, leftLive⟩ :=
        leftInduction builtLeft bookkeeping ports
          (fun signal member => live signal (List.mem_append_left _ member)) satisfies
      have middleBooks := build_bookkeeping builtLeft bookkeeping
      have middlePorts := build_ports builtLeft ports
      have rightSignals : ∀ signal ∈ right.signals, view.network.isDead signal.node = false :=
        fun signal member => live signal (List.mem_append_right _ member)
      obtain ⟨second, continuesSecond, rightValue, rightLive⟩ :=
        rightInduction builtRight middleBooks middlePorts
          (fun signal member => (build_grows builtLeft).live (rightSignals signal member))
          continuesFirst.satisfies
      obtain ⟨leftStays, rightStays, outcome⟩ := createAnd_eq (network_of_createAnd created)
      obtain ⟨third, continuesThird, value, edgeLive⟩ := conjoin_continues
        (build_bookkeeping builtRight middleBooks).toReferences
        (build_ports builtRight middlePorts) continuesSecond.satisfies leftStays rightStays
      rw [outcome] at continuesThird value edgeLive
      refine ⟨third, (continuesFirst.trans continuesSecond).trans continuesThird, ?_, edgeLive⟩
      have rightSame : right.value first = right.value valuation :=
        value_congr fun signal member => continuesFirst.edge_value (rightSignals signal member)
      rw [value, continuesSecond.edge_value leftLive, leftValue, rightValue, rightSame,
        Recipe.value]
  | not operand induction =>
      obtain ⟨inner, builtOperand, rfl⟩ := build_not_eq_ok.mp built
      obtain ⟨extended, continues, value, edgeLive⟩ :=
        induction builtOperand bookkeeping ports live satisfies
      refine ⟨extended, continues, ?_, edgeLive⟩
      rw [Edge.value_not, value, Recipe.value]

/-! ### Runs -/

/-- What a rule proposes for a node has the node's value. -/
theorem propose_continues {rule : Rule} {view : DepthView Aig} {node : Nat}
    {proposal : Proposal Aig} (proposed : propose rule view node = .ok proposal)
    (bookkeeping : view.network.Bookkeeping) (ports : view.network.Ports)
    {valuation : Nat → Bool} (satisfies : view.network.Satisfies valuation) :
    ∃ extended, view.network.Continues valuation proposal.view.network extended ∧
      ∀ edge, proposal.replacement = some edge →
        Agrees extended { old := node, new := edge } := by
  rcases propose_cases proposed with ⟨absent, same⟩ | ⟨recipe, edge, found, built, outcome⟩
  · rw [same, absent]
    exact ⟨valuation, continues_refl satisfies, nofun⟩
  · have computes := Rule.computes_of_examine bookkeeping.toReferences found
    obtain ⟨extended, continues, value, _⟩ :=
      build_continues built bookkeeping ports computes.live satisfies
    refine ⟨extended, continues, ?_⟩
    intro replacement proposes
    rcases outcome with ⟨_, absent⟩ | ⟨_, chosen⟩
    · rw [absent] at proposes
      cases proposes
    · rw [chosen] at proposes
      cases proposes
      obtain ⟨fanins, stored⟩ := isGate_iff.mp computes.isGate
      rw [Agrees, value, computes.value valuation satisfies,
        continues.agrees node (lt_size_of_gateFanins? stored)]

theorem Explores.continues {view next : DepthView Aig} (explores : Explores view next)
    (bookkeeping : view.network.Bookkeeping) (ports : view.network.Ports)
    {valuation : Nat → Bool} (satisfies : view.network.Satisfies valuation) :
    ∃ extended, view.network.Continues valuation next.network extended := by
  induction explores with
  | refl => exact ⟨valuation, continues_refl satisfies⟩
  | @tail middle next explored declines induction =>
      obtain ⟨between, first⟩ := induction
      obtain ⟨rule, node, records, proposed⟩ := declines
      have edits : Edits (fun _ => True) view.network middle.network :=
        Explores.edits explored
      obtain ⟨extended, second, _⟩ := propose_continues proposed
        (edits.bookkeeping bookkeeping) (edits.ports ports) first.satisfies
      exact ⟨extended, first.trans second⟩

theorem Fires.continues {fuel : Nat} {rule : Rule} {view next : DepthView Aig}
    {changes : List Change} (fires : Fires fuel rule view changes next)
    (bookkeeping : view.network.Bookkeeping) (ports : view.network.Ports)
    {valuation : Nat → Bool} (satisfies : view.network.Satisfies valuation) :
    ∃ extended, view.network.Continues valuation next.network extended := by
  obtain ⟨node, proposal, edge, proposed, proposes, substituted⟩ := fires
  obtain ⟨extended, continues, agrees⟩ :=
    propose_continues proposed bookkeeping ports satisfies
  have edits : Edits (fun _ => True) view.network proposal.view.network :=
    propose_edits proposed
  have drains := substitute_drains (network_of_substitute substituted)
  obtain ⟨satisfied, outputs⟩ := drains.sound (edits.bookkeeping bookkeeping)
    continues.satisfies (by simpa using agrees edge proposes)
  refine ⟨extended, continues.trans ?_⟩
  exact { satisfies := satisfied
          inputs := drains.inputs
          size := drains.edits.size_le
          agrees := fun _ _ => rfl
          outputs := outputs }

theorem Repeats.continues {fuel : Nat} {view next : DepthView Aig} {changes : List Change}
    (repeats : Repeats fuel view changes next) (bookkeeping : view.network.Bookkeeping)
    (ports : view.network.Ports) {valuation : Nat → Bool}
    (satisfies : view.network.Satisfies valuation) :
    ∃ extended, view.network.Continues valuation next.network extended := by
  induction repeats generalizing valuation with
  | stop view => exact ⟨valuation, continues_refl satisfies⟩
  | last explores => exact explores.continues bookkeeping ports satisfies
  | @again view middle replaced fresh next rule changes later explores fires refreshed _
      induction =>
      obtain ⟨first, explored⟩ := explores.continues bookkeeping ports satisfies
      have explorations : Edits (fun _ => True) view.network middle.network := explores.edits
      have middleBooks := explorations.bookkeeping bookkeeping
      have middlePorts := explorations.ports ports
      obtain ⟨second, fired⟩ := fires.continues middleBooks middlePorts explored.satisfies
      rw [network_of_refresh refreshed] at induction
      obtain ⟨third, rest⟩ := induction (fires.edits.bookkeeping middleBooks)
        (fires.edits.ports middlePorts) fired.satisfies
      exact ⟨third, (explored.trans fired).trans rest⟩

end Rewriting

end AndInverter
