import AndInverter.Proofs.Rewriting.Heights
import AndInverter.Proofs.Rewriting.Preservation

/-!
# Rules on views that are wrong

Levels and flags say where a rule looks for its shape, and not what the shape
is.  Whatever they are, what a rule puts in the place of a node computes the
node and does not reach it.

For the last part, all signals of a recipe lie below the node.  A conjunction
of edges that avoid the node avoids it too, unless it is the node, found in
the table.  A rule looks at the last conjunction before it goes on; of the
ones before that, none is the node, since a fanin of the node is among the
operands of none of them.
-/

namespace AndInverter

open Network

namespace Aig

/-- A live edge that does not lead to a node. -/
structure Avoids (aig : Aig) (node : Nat) (edge : Edge) : Prop where
  live : aig.isDead edge.node = false
  apart : ¬ Reaches aig edge.node node

section Avoids

variable {aig next : Aig} {node gate : Nat} {edge left right : Edge} {fanins : Fanins}

theorem Avoids.grows (avoids : aig.Avoids node edge) (references : aig.References)
    (grows : aig.Grows next) : next.Avoids node edge :=
  { live := grows.live avoids.live
    apart := fun reaches =>
      avoids.apart (grows.reaches_of_live references avoids.live reaches) }

theorem avoids_of_below (references : aig.References) (acyclic : aig.Acyclic)
    (below : Relation.TransGen (Reads aig) node edge.node) : aig.Avoids node edge := by
  obtain ⟨parent, _, reads⟩ := Relation.TransGen.tail'_iff.mp below
  constructor
  · exact references.fanins_live parent _ (reads_iff.mp reads)
  · intro reaches
    exact acyclic node (below.trans_left reaches)

theorem avoids_constant (ports : aig.Ports) (stored : aig.gateFanins? node = some fanins)
    (value : Bool) : aig.Avoids node (.constant value) := by
  have noGate : ∀ pair, aig.gateFanins? 0 ≠ some pair := by
    intro pair found
    have isGate := isGate_iff.mpr ⟨pair, found⟩
    rw [ports.isGate_constant] at isGate
    cases isGate
  constructor
  · exact isDead_eq_false_iff.mpr ⟨_, ports.constant⟩
  · intro reaches
    rcases Relation.ReflTransGen.cases_head reaches with rfl | ⟨_, reads, _⟩
    · exact noGate _ stored
    · obtain ⟨pair, found, _⟩ := reads_iff.mp reads
      exact noGate pair found

/-- A gate other than the node leads to it through its fanins only. -/
theorem avoids_gate (stored : aig.gateFanins? gate = some fanins) (other : gate ≠ node)
    (first : aig.Avoids node fanins.first) (second : aig.Avoids node fanins.second) :
    aig.Avoids node (.plain gate) := by
  constructor
  · exact isDead_of_gateFanins? stored
  · intro reaches
    rcases Relation.ReflTransGen.cases_head reaches with same | ⟨child, reads, rest⟩
    · exact other same
    · obtain ⟨pair, found, sides⟩ := reads_iff.mp reads
      cases stored.symm.trans found
      rcases sides with rfl | rfl
      · exact first.apart rest
      · exact second.apart rest

/-- The conjunction of edges that avoid a gate avoids it too, or it is this
gate and they are its fanins. -/
theorem conjoin_avoids (references : aig.References) (ports : aig.Ports)
    (stored : aig.gateFanins? node = some fanins)
    (leftAvoids : aig.Avoids node left) (rightAvoids : aig.Avoids node right) :
    (aig.conjoin left right).2.Avoids node (aig.conjoin left right).1 ∨
      (aig.conjoin left right).1.node = node ∧ fanins = Fanins.ordered left right := by
  have avoids : ∀ operand, operand = (Fanins.ordered left right).first ∨
      operand = (Fanins.ordered left right).second → aig.Avoids node operand := by
    intro operand member
    rcases Fanins.mem_ordered_iff.mp member with rfl | rfl
    · exact leftAvoids
    · exact rightAvoids
  have grows := aig.conjoin_grows left right
  rcases aig.conjoin_cases left right with
    ⟨edge, reduced, outcome⟩ | ⟨gate, found, outcome⟩ | ⟨_, _, outcome⟩
  · rw [outcome]
    left
    rcases Fanins.eq_of_trivial? reduced with rfl | rfl
    · exact avoids_constant ports stored false
    · exact avoids _ (.inr rfl)
  · rw [outcome]
    have hashed := references.table_sound _ gate found
    by_cases same : gate = node
    · subst same
      exact .inr ⟨rfl, Option.some.inj (stored.symm.trans hashed)⟩
    · exact .inl (avoids_gate hashed same (avoids _ (.inl rfl)) (avoids _ (.inr rfl)))
  · rw [outcome] at grows ⊢
    have added : (aig.addGate (Fanins.ordered left right)).2.gateFanins? aig.size =
        some (Fanins.ordered left right) := by
      rw [gateFanins?_addGate, if_pos rfl]
    have new : aig.size ≠ node := Nat.ne_of_gt (lt_size_of_gateFanins? stored)
    exact .inl (avoids_gate added new ((avoids _ (.inl rfl)).grows references grows)
      ((avoids _ (.inr rfl)).grows references grows))

theorem plain_or_operand_of_conjoin (aig : Aig) (left right : Edge) :
    (aig.conjoin left right).1.complement = false ∨ (aig.conjoin left right).1 = left ∨
      (aig.conjoin left right).1 = right := by
  rcases aig.conjoin_cases left right with
    ⟨edge, reduced, outcome⟩ | ⟨gate, _, outcome⟩ | ⟨_, _, outcome⟩
  · rw [outcome]
    rcases Fanins.eq_of_trivial? reduced with rfl | rfl
    · exact .inl rfl
    · exact .inr (Fanins.mem_ordered_iff.mp (.inr rfl))
  · rw [outcome]
    exact .inl rfl
  · rw [outcome]
    exact .inl rfl

theorem conjoin_ne (aig : Aig) {avoided : Edge} (complemented : avoided.complement = true)
    (leftOther : left ≠ avoided) (rightOther : right ≠ avoided) :
    (aig.conjoin left right).1 ≠ avoided := by
  intro same
  rcases aig.plain_or_operand_of_conjoin left right with plain | isLeft | isRight
  · rw [same, complemented] at plain
    cases plain
  · exact leftOther (isLeft.symm.trans same)
  · exact rightOther (isRight.symm.trans same)

end Avoids

end Aig

open Aig

namespace Recipe

/-- A recipe that is not built to the given edge: its signals are on other
nodes, and conjunctions are read plainly. -/
def Misses (avoided : Edge) : Recipe → Prop
  | .signal edge => edge.node ≠ avoided.node
  | .and left right =>
    avoided.complement = true ∧ left.Misses avoided ∧ right.Misses avoided
  | .not operand => operand.Misses avoided.not

def Skips (avoided : Edge) : Recipe → Prop
  | .signal _ => True
  | .and left right =>
    (left.Misses avoided ∧ right.Misses avoided) ∧ left.Skips avoided ∧ right.Skips avoided
  | .not operand => operand.Skips avoided

/-- No conjunction has the given edge as an operand, the last one apart. -/
def SkipsInside (avoided : Edge) : Recipe → Prop
  | .signal _ => True
  | .and left right => left.Skips avoided ∧ right.Skips avoided
  | .not operand => operand.SkipsInside avoided

theorem Skips.inside {recipe : Recipe} {avoided : Edge} (skips : recipe.Skips avoided) :
    recipe.SkipsInside avoided := by
  induction recipe with
  | signal edge => trivial
  | and left right => exact skips.2
  | not operand induction => exact induction skips

variable {view next : DepthView Aig} {edge avoided : Edge}

theorem build_ne {recipe : Recipe} (built : recipe.build view = .ok (edge, next))
    (misses : recipe.Misses avoided) : edge ≠ avoided := by
  induction recipe generalizing view next edge avoided with
  | signal signal =>
      cases built
      exact fun same => misses (congrArg Edge.node same)
  | and left right leftInduction rightInduction =>
      obtain ⟨leftEdge, middle, rightEdge, last, builtLeft, builtRight, created⟩ :=
        Rewriting.build_and_eq_ok.mp built
      obtain ⟨complemented, leftMisses, rightMisses⟩ := misses
      obtain ⟨_, _, outcome⟩ := createAnd_eq (Rewriting.network_of_createAnd created)
      have other := conjoin_ne last.network complemented (leftInduction builtLeft leftMisses)
        (rightInduction builtRight rightMisses)
      rwa [outcome] at other
  | not operand induction =>
      obtain ⟨inner, builtOperand, rfl⟩ := Rewriting.build_not_eq_ok.mp built
      have other : inner ≠ avoided.not := induction builtOperand misses
      intro same
      rw [← same, Edge.not_not] at other
      exact other rfl

/-- Recipes that are built to the fanins of a gate do not both miss the same
fanin. -/
theorem not_both_miss {left right : Recipe} {leftEdge rightEdge : Edge}
    {leftView middle rightView last : DepthView Aig}
    (isFanin : avoided = (Fanins.ordered leftEdge rightEdge).first ∨
      avoided = (Fanins.ordered leftEdge rightEdge).second)
    (builtLeft : left.build leftView = .ok (leftEdge, middle))
    (builtRight : right.build rightView = .ok (rightEdge, last)) :
    ¬ (left.Misses avoided ∧ right.Misses avoided) := by
  rintro ⟨leftMisses, rightMisses⟩
  rcases Fanins.mem_ordered_iff.mp isFanin with rfl | rfl
  · exact build_ne builtLeft leftMisses rfl
  · exact build_ne builtRight rightMisses rfl

/-- A recipe over signals that avoid a gate, which skips one of its fanins in
all conjunctions but the last, is built to an edge that avoids the gate; or to
the gate itself, if it does not skip the fanin in the last one. -/
theorem build_avoids {recipe : Recipe} {node : Nat} {fanins : Fanins}
    (built : recipe.build view = .ok (edge, next)) (bookkeeping : view.network.Bookkeeping)
    (ports : view.network.Ports) (stored : view.network.gateFanins? node = some fanins)
    (isFanin : avoided = fanins.first ∨ avoided = fanins.second)
    (signals : ∀ signal ∈ recipe.signals, view.network.Avoids node signal)
    (skips : recipe.SkipsInside avoided) :
    next.network.Avoids node edge ∨ edge.node = node ∧ ¬ recipe.Skips avoided := by
  induction recipe generalizing view next edge with
  | signal signal =>
      cases built
      exact .inl (signals _ List.mem_cons_self)
  | and left right leftInduction rightInduction =>
      obtain ⟨leftEdge, middle, rightEdge, last, builtLeft, builtRight, created⟩ :=
        Rewriting.build_and_eq_ok.mp built
      obtain ⟨leftSkips, rightSkips⟩ := skips
      have growsLeft := Rewriting.build_grows builtLeft
      have growsRight := Rewriting.build_grows builtRight
      have middleBooks := Rewriting.build_bookkeeping builtLeft bookkeeping
      have middlePorts := Rewriting.build_ports builtLeft ports
      have leftAvoids : middle.network.Avoids node leftEdge := by
        refine (leftInduction builtLeft bookkeeping ports stored
          (fun signal member => signals signal (List.mem_append_left _ member))
          leftSkips.inside).resolve_right ?_
        exact fun exceptional => exceptional.2 leftSkips
      have rightAvoids : last.network.Avoids node rightEdge := by
        refine (rightInduction builtRight middleBooks middlePorts (growsLeft.gateFanins? stored)
          (fun signal member => (signals signal (List.mem_append_right _ member)).grows
            bookkeeping.toReferences growsLeft) rightSkips.inside).resolve_right ?_
        exact fun exceptional => exceptional.2 rightSkips
      have storedLast := growsRight.gateFanins? (growsLeft.gateFanins? stored)
      have joined := conjoin_avoids
        (Rewriting.build_bookkeeping builtRight middleBooks).toReferences
        (Rewriting.build_ports builtRight middlePorts) storedLast
        (leftAvoids.grows middleBooks.toReferences growsRight) rightAvoids
      obtain ⟨_, _, outcome⟩ := createAnd_eq (Rewriting.network_of_createAnd created)
      rw [outcome] at joined
      rcases joined with avoids | ⟨same, rfl⟩
      · exact .inl avoids
      · refine .inr ⟨same, fun skips => ?_⟩
        exact not_both_miss isFanin builtLeft builtRight skips.1
  | not operand induction =>
      obtain ⟨inner, builtOperand, rfl⟩ := Rewriting.build_not_eq_ok.mp built
      rcases induction builtOperand bookkeeping ports stored signals skips with
        avoids | exceptional
      · exact .inl ⟨avoids.live, avoids.apart⟩
      · exact .inr exceptional

theorem exists_build {recipe : Recipe} (bookkeeping : view.network.Bookkeeping)
    (ports : view.network.Ports)
    (live : ∀ signal ∈ recipe.signals, view.network.isDead signal.node = false)
    {valuation : Nat → Bool} (satisfies : view.network.Satisfies valuation) :
    ∃ edge next, recipe.build view = .ok (edge, next) := by
  induction recipe generalizing view valuation with
  | signal signal => exact ⟨signal, view, rfl⟩
  | and left right leftInduction rightInduction =>
      have leftSignals : ∀ signal ∈ left.signals, view.network.isDead signal.node = false :=
        fun signal member => live signal (List.mem_append_left _ member)
      obtain ⟨leftEdge, middle, builtLeft⟩ :=
        leftInduction bookkeeping ports leftSignals satisfies
      obtain ⟨first, continuesFirst, _, leftLive⟩ :=
        Rewriting.build_continues builtLeft bookkeeping ports leftSignals satisfies
      have middleBooks := Rewriting.build_bookkeeping builtLeft bookkeeping
      have middlePorts := Rewriting.build_ports builtLeft ports
      have rightSignals : ∀ signal ∈ right.signals, middle.network.isDead signal.node = false :=
        fun signal member => (Rewriting.build_grows builtLeft).live
          (live signal (List.mem_append_right _ member))
      obtain ⟨rightEdge, last, builtRight⟩ :=
        rightInduction middleBooks middlePorts rightSignals continuesFirst.satisfies
      obtain ⟨_, _, _, rightLive⟩ := Rewriting.build_continues builtRight middleBooks middlePorts
        rightSignals continuesFirst.satisfies
      have created :=
        DepthView.createAnd_eq_ok ((Rewriting.build_grows builtRight).live leftLive) rightLive
      exact ⟨_, _, Rewriting.build_and_eq_ok.mpr
        ⟨leftEdge, middle, rightEdge, last, builtLeft, builtRight, created⟩⟩
  | not operand induction =>
      obtain ⟨edge, next, built⟩ := induction bookkeeping ports live satisfies
      exact ⟨edge.not, next, Rewriting.build_not_eq_ok.mpr ⟨edge, built, rfl⟩⟩

end Recipe

namespace Rule

variable {view : DepthView Aig} {critical : Edge → Bool} {node : Nat}

/-- What keeps a recipe for a node clear of it: the signals lie below the
node, and one of its fanins is skipped in all conjunctions but the last. -/
structure Sidesteps (aig : Aig) (node : Nat) (avoided : Edge) (recipe : Recipe) : Prop where
  isFanin : ∃ fanins, aig.gateFanins? node = some fanins ∧
    (avoided = fanins.first ∨ avoided = fanins.second)
  below : ∀ signal ∈ recipe.signals, Relation.TransGen (Reads aig) node signal.node
  skips : recipe.SkipsInside avoided

theorem fanins_of_split {left right : Edge}
    (path : (layerBelow view critical node).critical = [left])
    (rest : (layerBelow view critical node).others = [right]) :
    view.network.gateFanins? node = some { first := left, second := right } ∨
      view.network.gateFanins? node = some { first := right, second := left } := by
  obtain ⟨⟨one, other⟩, stored⟩ := exists_fanins (Layer.mem_edges_of_critical path)
  rw [layerBelow, fanins_eq stored] at path rest
  cases first : critical one <;> cases second : critical other <;>
    simp [Layer.split, first, second] at path rest
  · rw [stored, path, rest]
    exact .inr rfl
  · rw [stored, path, rest]
    exact .inl rfl

private theorem pair_of_fanins (references : view.network.References) {left right : Edge}
    (fanins : view.network.gateFanins? node = some { first := left, second := right } ∨
      view.network.gateFanins? node = some { first := right, second := left }) :
    (∃ fanins, view.network.gateFanins? node = some fanins ∧
      (left = fanins.first ∨ left = fanins.second)) ∧
    Reads view.network node left.node ∧ Reads view.network node right.node ∧
      right.node ≠ left.node := by
  rcases fanins with stored | stored
  · obtain ⟨_, different, _⟩ := references.normal node _ stored
    exact ⟨⟨_, stored, .inl rfl⟩, reads_iff.mpr ⟨_, stored, .inl rfl⟩,
      reads_iff.mpr ⟨_, stored, .inr rfl⟩, different.symm⟩
  · obtain ⟨_, different, _⟩ := references.normal node _ stored
    exact ⟨⟨_, stored, .inr rfl⟩, reads_iff.mpr ⟨_, stored, .inr rfl⟩,
      reads_iff.mpr ⟨_, stored, .inl rfl⟩, different⟩

private theorem ne_of_below (acyclic : view.network.Acyclic) {source target : Nat}
    (below : Relation.TransGen (Reads view.network) source target) : target ≠ source := by
  rintro rfl
  exact acyclic _ below

/-- The new inner gate joins the fanin that is kept with one that lies below
the other fanin. -/
theorem Regroups.sidesteps (references : view.network.References)
    (acyclic : view.network.Acyclic) {plain kept path inner : Edge}
    (regroups : Regroups view node plain kept path inner) :
    Sidesteps view.network node plain
        (.and (.signal path) (.and (.signal inner) (.signal kept))) ∧
      Sidesteps view.network node plain
        (.and (.signal path) (.and (.signal kept) (.signal inner))) := by
  obtain ⟨isFanin, readsPlain, readsKept, keptOther⟩ := pair_of_fanins references regroups.fanins
  have readsPath := reads_of_mem_layer (Layer.mem_edges_of_critical regroups.onPlain)
  have readsInner := reads_of_mem_layer (Layer.mem_edges_of_others regroups.besidePlain)
  have innerOther := ne_of_below acyclic (.single readsInner)
  have pathBelow := (Relation.TransGen.single readsPlain).tail readsPath
  have innerBelow := (Relation.TransGen.single readsPlain).tail readsInner
  constructor
  · refine ⟨isFanin, ?_, trivial, ⟨innerOther, keptOther⟩, trivial, trivial⟩
    simp [Recipe.signals, pathBelow, innerBelow, Relation.TransGen.single readsKept]
  · refine ⟨isFanin, ?_, trivial, ⟨keptOther, innerOther⟩, trivial, trivial⟩
    simp [Recipe.signals, pathBelow, innerBelow, Relation.TransGen.single readsKept]

/-- The new inner gate joins fanins of the two products.  They could be the
products themselves, each below the other, if there were cycles. -/
theorem Factors.sidesteps (acyclic : view.network.Acyclic)
    {first second shared left right : Edge}
    (factors : Factors view node first second shared left right) :
    ∃ avoided, Sidesteps view.network node avoided
      (.nand (.signal shared) (.or (.signal left) (.signal right))) := by
  have readsFirst : Reads view.network node first.node :=
    reads_iff.mpr ⟨_, factors.fanins, .inl rfl⟩
  have readsSecond : Reads view.network node second.node :=
    reads_iff.mpr ⟨_, factors.fanins, .inr rfl⟩
  have readsShared := reads_of_mem_layer (Layer.mem_edges_of_critical factors.onFirst)
  have readsLeft := reads_of_mem_layer (Layer.mem_edges_of_others factors.besideFirst)
  have readsRight := reads_of_mem_layer (Layer.mem_edges_of_others factors.besideSecond)
  have below : ∀ signal ∈ (Recipe.nand (.signal shared) (.or (.signal left)
      (.signal right))).signals, Relation.TransGen (Reads view.network) node signal.node := by
    have sharedBelow := (Relation.TransGen.single readsFirst).tail readsShared
    have leftBelow := (Relation.TransGen.single readsFirst).tail readsLeft
    have rightBelow := (Relation.TransGen.single readsSecond).tail readsRight
    simp [Recipe.nand, Recipe.or, Recipe.signals, sharedBelow, leftBelow, rightBelow]
  have skips : ∀ avoided : Edge, left.node ≠ avoided.node → right.node ≠ avoided.node →
      (Recipe.nand (.signal shared) (.or (.signal left) (.signal right))).SkipsInside avoided :=
    fun avoided leftOther rightOther =>
      ⟨trivial, ⟨leftOther, rightOther⟩, trivial, trivial⟩
  by_cases chained : left.node = second.node
  · -- The first product reads the second one, so the second does not read the first.
    rw [chained] at readsLeft
    exact ⟨first, ⟨_, factors.fanins, .inl rfl⟩, below,
      skips first (chained ▸ ne_of_below acyclic (.single readsLeft))
        (ne_of_below acyclic (.tail (.single readsLeft) readsRight))⟩
  · exact ⟨second, ⟨_, factors.fanins, .inr rfl⟩, below,
      skips second chained (ne_of_below acyclic (.single readsRight))⟩

/-- The new gates join what lies below the branch or beside it.  The branch is
read complemented, so none of them stands for it either. -/
theorem Distributes.sidesteps (references : view.network.References)
    (acyclic : view.network.Acyclic) {branch a inner b x d : Edge}
    (distributes : Distributes view node branch a inner b x d) :
    Sidesteps view.network node branch
      (.nand (.not (.and (.signal x) (.and (.signal a) (.signal d))))
        (.not (.and (.signal a) (.not (.signal b))))) := by
  obtain ⟨isFanin, readsBranch, readsA, aOther⟩ := pair_of_fanins references
    (fanins_of_split distributes.onTop distributes.besideTop)
  have readsInner := reads_of_mem_layer (Layer.mem_edges_of_critical distributes.onMiddle)
  have readsB := reads_of_mem_layer (Layer.mem_edges_of_others distributes.besideMiddle)
  have readsX := reads_of_mem_layer (Layer.mem_edges_of_critical distributes.onBottom)
  have readsD := reads_of_mem_layer (Layer.mem_edges_of_others distributes.besideBottom)
  have complemented := complement_of_onPathComplemented distributes.branchOnTop
  have bOther := ne_of_below acyclic (.single readsB)
  have xOther := ne_of_below acyclic (.tail (.single readsInner) readsX)
  have dOther := ne_of_below acyclic (.tail (.single readsInner) readsD)
  refine ⟨isFanin, ?_, ?_⟩
  · have branchBelow := Relation.TransGen.single readsBranch
    have bBelow := branchBelow.tail readsB
    have xBelow := (branchBelow.tail readsInner).tail readsX
    have dBelow := (branchBelow.tail readsInner).tail readsD
    simp [Recipe.nand, Recipe.signals, Relation.TransGen.single readsA, bBelow, xBelow, dBelow]
  · exact ⟨⟨⟨xOther, complemented, aOther, dOther⟩, trivial, ⟨aOther, dOther⟩, trivial, trivial⟩,
      ⟨aOther, bOther⟩, trivial, trivial⟩

theorem exists_sidesteps (references : view.network.References)
    (acyclic : view.network.Acyclic) {rule : Rule} {recipe : Recipe}
    (found : rule.examine view node = .found recipe) :
    ∃ avoided, Sidesteps view.network node avoided recipe := by
  cases rule with
  | associativity =>
      obtain ⟨plain, _, _, _, regroups, order⟩ := regroups_of_matchAssociativity found
      rcases order with rfl | rfl
      · exact ⟨plain, (regroups.sidesteps references acyclic).1⟩
      · exact ⟨plain, (regroups.sidesteps references acyclic).2⟩
  | distributivity =>
      obtain ⟨_, _, _, _, _, factors, rfl⟩ := factors_of_matchDistributivity references found
      exact factors.sidesteps acyclic
  | threeLayerDistributivity =>
      obtain ⟨branch, _, _, _, _, _, distributes, rfl⟩ := distributes_of_matchThreeLayer found
      exact ⟨branch, distributes.sidesteps references acyclic⟩

end Rule

namespace Rewriting

variable {view next : DepthView Aig} {node : Nat} {edge : Edge}

/-- What a rule builds for a node does not lead back to it, unless it is the
node. -/
theorem avoids_of_examine (bookkeeping : view.network.Bookkeeping) (ports : view.network.Ports)
    (acyclic : view.network.Acyclic) {rule : Rule} {recipe : Recipe}
    (found : rule.examine view node = .found recipe)
    (built : recipe.build view = .ok (edge, next)) (other : edge.node ≠ node) :
    next.network.Avoids node edge := by
  have references := bookkeeping.toReferences
  obtain ⟨avoided, sidesteps⟩ := Rule.exists_sidesteps references acyclic found
  obtain ⟨fanins, stored, isFanin⟩ := sidesteps.isFanin
  have signals : ∀ signal ∈ recipe.signals, view.network.Avoids node signal :=
    fun signal member => avoids_of_below references acyclic (sidesteps.below signal member)
  rcases Recipe.build_avoids built bookkeeping ports stored isFanin signals sidesteps.skips with
    avoids | ⟨same, _⟩
  · exact avoids
  · exact absurd same other

theorem exists_propose (bookkeeping : view.network.Bookkeeping) (ports : view.network.Ports)
    (acyclic : view.network.Acyclic) (rule : Rule) (node : Nat) :
    ∃ proposal, propose rule view node = .ok proposal := by
  unfold propose
  cases examined : rule.examine view node with
  | absent => exact ⟨_, rfl⟩
  | blocked => exact ⟨_, rfl⟩
  | found recipe =>
      have references := bookkeeping.toReferences
      have computes := Rule.computes_of_examine references examined
      obtain ⟨valuation, satisfies, _⟩ :=
        exists_valuation references ports acyclic (fun _ => false)
      obtain ⟨edge, next, built⟩ :=
        Recipe.exists_build bookkeeping ports computes.live satisfies
      show ∃ proposal, (recipe.build view >>= _) = Except.ok proposal
      rw [built]
      show ∃ proposal, (if edge.node = node then _ else _) = Except.ok proposal
      split
      · exact ⟨_, rfl⟩
      · exact ⟨_, rfl⟩

/-- Under each assignment, what a rule builds for a node has one value, which is
the one of the node before and afterwards. -/
theorem evaluates_of_examine (bookkeeping : view.network.Bookkeeping)
    (ports : view.network.Ports) (acyclic : view.network.Acyclic) {rule : Rule} {recipe : Recipe}
    (found : rule.examine view node = .found recipe)
    (built : recipe.build view = .ok (edge, next)) (assignment : Nat → Bool) :
    ∃ value, (∀ other, next.network.EdgeEvaluates assignment edge other ↔ other = value) ∧
      (∀ other, next.network.EdgeEvaluates assignment (.plain node) other ↔ other = value) ∧
      ∀ other, view.network.EdgeEvaluates assignment (.plain node) other ↔ other = value := by
  have references := bookkeeping.toReferences
  have computes := Rule.computes_of_examine references found
  obtain ⟨fanins, stored⟩ := isGate_iff.mp computes.isGate
  have live : view.network.isDead (Edge.plain node).node = false := isDead_of_gateFanins? stored
  obtain ⟨valuation, satisfies, assigns⟩ := exists_valuation references ports acyclic assignment
  obtain ⟨extended, continues, value, edgeLive⟩ :=
    build_continues built bookkeeping ports computes.live satisfies
  have laterReferences := (build_bookkeeping built bookkeeping).toReferences
  have laterPorts := build_ports built ports
  have laterAcyclic := build_acyclic built bookkeeping acyclic
  have laterAssigns := continues.assigns ports assigns
  have plain : (Edge.plain node).value valuation = valuation node := Bool.xor_false _
  refine ⟨valuation node, fun other => ?_, fun other => ?_, fun other => ?_⟩
  · rw [edgeEvaluates_iff laterReferences laterPorts laterAcyclic continues.satisfies
      laterAssigns edgeLive, value, computes.value valuation satisfies]
    exact eq_comm
  · rw [edgeEvaluates_iff laterReferences laterPorts laterAcyclic continues.satisfies
      laterAssigns ((build_grows built).live live), continues.edge_value live, plain]
    exact eq_comm
  · rw [edgeEvaluates_iff references ports acyclic satisfies assigns live, plain]
    exact eq_comm

/-- Levels, flags and depth of the view are arbitrary here.  A rule has an
answer for each node.  If it asks for a replacement, the node is a gate, and
the replacement is live, is not the node and does not lead to it.  Under each
assignment both have one value, the same, which is that of the node before
anything was built. -/
theorem propose_independent (reachable : view.network.Reachable)
    (acyclic : view.network.Acyclic) (rule : Rule) (node : Nat) :
    ∃ proposal, propose rule view node = .ok proposal ∧
      ∀ edge, proposal.replacement = some edge →
        view.network.isGate node = true ∧ proposal.view.network.isGate node = true ∧
        proposal.view.network.isDead edge.node = false ∧ edge.node ≠ node ∧
        ¬ Reaches proposal.view.network edge.node node ∧
        ∀ assignment, ∃ value,
          (∀ other, proposal.view.network.EdgeEvaluates assignment edge other ↔ other = value) ∧
          (∀ other, proposal.view.network.EdgeEvaluates assignment (.plain node) other ↔
            other = value) ∧
          ∀ other, view.network.EdgeEvaluates assignment (.plain node) other ↔ other = value := by
  have bookkeeping := reachable.bookkeeping
  have ports := reachable.ports
  obtain ⟨proposal, proposed⟩ := exists_propose bookkeeping ports acyclic rule node
  refine ⟨proposal, proposed, ?_⟩
  intro edge replaces
  rcases propose_cases proposed with ⟨nothing, _⟩ | ⟨recipe, other, found, built, outcome⟩
  · cases nothing.symm.trans replaces
  · rcases outcome with ⟨_, nothing⟩ | ⟨different, something⟩
    · cases nothing.symm.trans replaces
    · cases something.symm.trans replaces
      have computes := Rule.computes_of_examine bookkeeping.toReferences found
      obtain ⟨fanins, stored⟩ := isGate_iff.mp computes.isGate
      have avoids := avoids_of_examine bookkeeping ports acyclic found built different
      exact ⟨computes.isGate, isGate_iff.mpr ⟨_, (build_grows built).gateFanins? stored⟩,
        avoids.live, different, avoids.apart,
        evaluates_of_examine bookkeeping ports acyclic found built⟩

/-- A view that takes node 3 for the deepest one. -/
def mistakenView (aig : Aig) : DepthView Aig :=
  { network := aig
    levels := #[0, 0, 0, 7, 0, 0, 0, 2]
    critical := #[false, false, false, true, false, false, true, true]
    depth := 0 }

/-- On a chain of three gates the mistaken view makes associativity regroup
around an input. -/
theorem propose_independent_mistaken : ∃ (aig : Aig) (fresh : DepthView Aig)
    (proposal : Proposal Aig) (edge : Edge), aig.Reachable ∧ aig.Acyclic ∧
      DepthView.ofNetwork aig = .ok fresh ∧ (mistakenView aig).level 3 ≠ fresh.level 3 ∧
      propose .associativity (mistakenView aig) 7 = .ok proposal ∧
      proposal.replacement = some edge ∧ edge.node ≠ 7 ∧
      ¬ Reaches proposal.view.network edge.node 7 := by
  have checked : (do
      let ended ← Aig.empty.session [.addInput, .addInput, .addInput, .addInput,
        .createAnd (.plain 1) (.plain 2), .createAnd (.plain 5) (.plain 3),
        .createAnd (.plain 6) (.plain 4), .addOutput (.plain 7)]
      let fresh ← DepthView.ofNetwork ended.1
      let proposal ← propose .associativity (mistakenView ended.1) 7
      return (mistakenView ended.1).level 3 != fresh.level 3 &&
        proposal.replacement == some (Edge.plain 9)) = .ok true := by
    decide +kernel
  obtain ⟨⟨aig, log⟩, ended, rest⟩ := bind_eq_ok.mp checked
  obtain ⟨fresh, seen, rest⟩ := bind_eq_ok.mp rest
  obtain ⟨proposal, proposed, results⟩ := bind_eq_ok.mp rest
  simp only [pure_eq_ok, Bool.and_eq_true, bne_iff_ne, beq_iff_eq] at results
  obtain ⟨wrong, replaces⟩ := results
  have reachable : aig.Reachable := evolves_of_session ended
  have acyclic : aig.Acyclic := acyclic_of_ofNetwork seen
  have kept : (mistakenView aig).network = aig := rfl
  obtain ⟨proposal', proposed', independent⟩ :=
    propose_independent (kept ▸ reachable) (kept ▸ acyclic) .associativity 7
  cases proposed.symm.trans proposed'
  obtain ⟨_, _, _, different, apart, _⟩ := independent _ replaces
  exact ⟨aig, fresh, proposal, _, reachable, acyclic, seen, wrong, proposed, replaces, different,
    apart⟩

end Rewriting

end AndInverter
