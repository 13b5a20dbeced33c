import AndInverter.Proofs.Aig.Cleanup
import AndInverter.Proofs.DepthView.CriticalPaths
import AndInverter.Proofs.Rewriting.Depth
import AndInverter.Proofs.Rewriting.Independence

/-!
# Rewriting leaves no garbage

A substitution leaves no gate dangling that was not dangling before.  The gates
that a rewrite has built are used too: an inner one by the next conjunction,
which does not reduce to false over it, and the last one by what used to read
the node.  So the gates that dangle after a run dangled before it.

What a conjunction could lose is an operand beside its own complement or beside
false.  Apart from signals, that takes two operands of different polarity, and
the conjunctions of the rules have none.
-/

namespace AndInverter

open Network

namespace Edge

/-- The conjunction of the edges is false, whatever they stand for. -/
def Cancels (left right : Edge) : Prop :=
  right = left.not ∨ left = .constant false ∨ right = .constant false

/-- The edge reads one of the nodes below a bound, and not the constant. -/
def Grounded (bound : Nat) (edge : Edge) : Prop :=
  edge.node ≠ 0 ∧ edge.node < bound

theorem Cancels.symm {left right : Edge} (cancels : left.Cancels right) : right.Cancels left := by
  rcases cancels with opposite | first | second
  · left
    rw [opposite, not_not]
  · exact .inr (.inr first)
  · exact .inr (.inl second)

private theorem isComplementOf_iff {left right : Edge} :
    left.isComplementOf right = true ↔ right = left.not := by
  obtain ⟨node, complement⟩ := left
  obtain ⟨node', complement'⟩ := right
  cases complement <;> cases complement' <;>
    simp [isComplementOf, Edge.not, complementIf] <;> exact eq_comm

private theorem isFalse_iff {edge : Edge} : edge.isFalse = true ↔ edge = .constant false := by
  obtain ⟨node, complement⟩ := edge
  cases complement <;> simp [isFalse, constant]

/-- Edges do not cancel out, one of them on a new node, if the first one is
grounded or both are complemented wherever they are not. -/
theorem not_cancels {left right operand : Edge} {bound : Nat} (positive : 0 < bound)
    (clear : left.Grounded bound ∨ (left.complement = true ∨ left.Grounded bound) ∧
      (right.complement = true ∨ right.Grounded bound))
    (isOperand : operand = left ∨ operand = right) (new : bound ≤ operand.node) :
    ¬ left.Cancels right := by
  intro cancels
  rcases cancels with rfl | rfl | rfl
  · have new' : ¬ left.node < bound := by
      rcases isOperand with rfl | rfl
      · exact Nat.not_lt_of_le new
      · exact Nat.not_lt_of_le new
    rcases clear with grounded | ⟨first | grounded, second | grounded⟩
    · exact new' grounded.2
    · simp [Edge.not, complementIf, first] at second
    · exact new' grounded.2
    · exact new' grounded.2
    · exact new' grounded.2
  · rcases clear with grounded | ⟨first | grounded, _⟩
    · exact grounded.1 rfl
    · cases first
    · exact grounded.1 rfl
  · rcases clear with grounded | ⟨_, second | grounded⟩
    · rcases isOperand with rfl | rfl
      · exact Nat.not_lt_of_le new grounded.2
      · exact Nat.not_lt_of_le new positive
    · cases second
    · exact grounded.1 rfl

end Edge

/-- A pair that reduces cancels out, or it comes to its second edge, and the
first one is the same or the constant. -/
theorem Fanins.cancels_or_of_trivial? {fanins : Fanins} {edge : Edge}
    (reduced : fanins.trivial? = some edge) :
    fanins.first.Cancels fanins.second ∨
      edge = fanins.second ∧ (fanins.first = fanins.second ∨ fanins.first.node = 0) := by
  unfold trivial? at reduced
  split at reduced
  · rename_i opposite
    left
    rcases Bool.or_eq_true_iff.mp opposite with complements | isFalse
    · exact .inl (Edge.isComplementOf_iff.mp complements)
    · exact .inr (.inl (Edge.isFalse_iff.mp isFalse))
  · split at reduced
    · rename_i same
      cases reduced
      right
      refine ⟨rfl, ?_⟩
      rcases Bool.or_eq_true_iff.mp same with equal | isTrue
      · exact .inl (of_decide_eq_true equal)
      · simp only [Edge.isTrue, Bool.and_eq_true, beq_iff_eq] at isTrue
        exact .inr isTrue.1
    · cases reduced

theorem Fanins.trivial?_ordered_eq_none {left right : Edge} (different : left.node ≠ right.node)
    (leftNonzero : left.node ≠ 0) (rightNonzero : right.node ≠ 0) :
    (ordered left right).trivial? = none := by
  apply trivial?_eq_none_iff.mpr
  unfold ordered
  split
  · exact ⟨different.symm, rightNonzero⟩
  · exact ⟨different, leftNonzero⟩

namespace Aig

/-- What a conjunction joins is used by it, or is all that it comes to, unless
the operands cancel out. -/
theorem used_of_conjoin {aig : Aig} (references : aig.References) {left right operand : Edge}
    (isOperand : operand = left ∨ operand = right) (apart : ¬ left.Cancels right)
    (nonzero : operand.node ≠ 0) :
    operand.node = (aig.conjoin left right).1.node ∨
      (aig.conjoin left right).2.Used operand.node := by
  have sides := Fanins.mem_ordered_iff.mpr isOperand
  have reads : ∀ {store : Aig} {gate : Nat},
      store.gateFanins? gate = some (Fanins.ordered left right) → store.Used operand.node := by
    intro store gate stored
    left
    refine ⟨gate, _, stored, ?_⟩
    rcases sides with first | second
    · exact .inl (congrArg Edge.node first).symm
    · exact .inr (congrArg Edge.node second).symm
  rcases aig.conjoin_cases left right with
    ⟨edge, reduced, outcome⟩ | ⟨gate, found, outcome⟩ | ⟨_, _, outcome⟩
  · rw [outcome]
    left
    rcases Fanins.cancels_or_of_trivial? reduced with cancels | ⟨rfl, first⟩
    · refine absurd ?_ apart
      unfold Fanins.ordered at cancels
      split at cancels
      · exact cancels.symm
      · exact cancels
    · rcases sides with rfl | rfl
      · rcases first with same | constant
        · exact congrArg Edge.node same
        · exact absurd constant nonzero
      · rfl
  · rw [outcome]
    exact .inr (reads (references.table_sound _ gate found))
  · rw [outcome]
    right
    apply reads
    rw [gateFanins?_addGate, if_pos rfl]

end Aig

theorem DepthView.Extends.used {view next : DepthView Aig} (grown : view.Extends next) {id : Nat}
    (used : view.network.Used id) : next.network.Used id := by
  rcases used with ⟨gate, fanins, stored, sides⟩ | output
  · exact .inl ⟨gate, fanins, grown.grows.gateFanins? stored, sides⟩
  · right
    rwa [grown.outputs]

namespace Recipe

open Aig DepthView

/-- A recipe that is built to an edge of the given polarity, unless that is one
of its signals. -/
def Polar : (complement : Bool) → Recipe → Prop
  | _, .signal _ => True
  | complement, .and left right => complement = false ∧ left.Polar false ∧ right.Polar false
  | complement, .not operand => operand.Polar (!complement)

/-- A recipe whose conjunctions do not cancel out: one operand is a signal, or
both are complemented. -/
def Frugal : Recipe → Prop
  | .signal _ => True
  | .and left right => left.Frugal ∧ right.Frugal ∧
    ((∃ edge, left = .signal edge) ∨ left.Polar true ∧ right.Polar true)
  | .not operand => operand.Frugal

variable {view next : DepthView Aig} {edge : Edge} {bound : Nat}

theorem build_polar {recipe : Recipe} {complement : Bool} (polar : recipe.Polar complement)
    (grounded : ∀ signal ∈ recipe.signals, signal.Grounded bound)
    (built : recipe.build view = .ok (edge, next)) :
    edge.complement = complement ∨ edge.Grounded bound := by
  induction recipe generalizing complement view next edge with
  | signal signal =>
      cases built
      exact .inr (grounded _ List.mem_cons_self)
  | and left right leftInduction rightInduction =>
      obtain ⟨leftEdge, middle, rightEdge, last, builtLeft, builtRight, created⟩ :=
        Rewriting.build_and_eq_ok.mp built
      obtain ⟨rfl, leftPolar, rightPolar⟩ := polar
      have first := leftInduction leftPolar
        (fun signal member => grounded signal (List.mem_append_left _ member)) builtLeft
      have second := rightInduction rightPolar
        (fun signal member => grounded signal (List.mem_append_right _ member)) builtRight
      obtain ⟨_, _, outcome⟩ := createAnd_eq (Rewriting.network_of_createAnd created)
      have reads := last.network.plain_or_operand_of_conjoin leftEdge rightEdge
      rw [outcome] at reads
      rcases reads with plain | rfl | rfl
      · exact .inl plain
      · exact first
      · exact second
  | not operand induction =>
      obtain ⟨inner, builtOperand, rfl⟩ := Rewriting.build_not_eq_ok.mp built
      rcases induction polar grounded builtOperand with same | old
      · left
        simp [Edge.not, Edge.complementIf, same]
      · exact .inr old

/-- Every gate that is added for a frugal recipe is used, the one on its top
apart. -/
theorem build_uses {recipe : Recipe} (frugal : recipe.Frugal) (positive : 0 < bound)
    (grounded : ∀ signal ∈ recipe.signals, signal.Grounded bound) (tracks : view.Tracks)
    (live : ∀ signal ∈ recipe.signals, view.network.isDead signal.node = false)
    (fits : bound ≤ view.network.size) (built : recipe.build view = .ok (edge, next)) {id : Nat}
    (beyond : view.network.size ≤ id) (inside : id < next.network.size) :
    id = edge.node ∨ next.network.Used id := by
  induction recipe generalizing view next edge with
  | signal signal =>
      cases built
      exact absurd beyond (Nat.not_le_of_lt inside)
  | and left right leftInduction rightInduction =>
      obtain ⟨leftEdge, middle, rightEdge, last, builtLeft, builtRight, created⟩ :=
        Rewriting.build_and_eq_ok.mp built
      obtain ⟨leftFrugal, rightFrugal, sides⟩ := frugal
      have leftGrounded : ∀ signal ∈ left.signals, signal.Grounded bound :=
        fun signal member => grounded signal (List.mem_append_left _ member)
      have rightGrounded : ∀ signal ∈ right.signals, signal.Grounded bound :=
        fun signal member => grounded signal (List.mem_append_right _ member)
      have leftLive : ∀ signal ∈ left.signals, view.network.isDead signal.node = false :=
        fun signal member => live signal (List.mem_append_left _ member)
      obtain ⟨_, _, again, first⟩ := build_builds tracks leftLive
      cases again.symm.trans builtLeft
      have rightLive : ∀ signal ∈ right.signals, middle.network.isDead signal.node = false :=
        fun signal member => first.grown.grows.live (live signal (List.mem_append_right _ member))
      obtain ⟨_, _, again, second⟩ := build_builds first.tracks rightLive
      cases again.symm.trans builtRight
      obtain ⟨_, _, again, joined⟩ := createAnd_conjoins second.tracks
        (second.grown.grows.live first.live) second.live
      cases again.symm.trans created
      have clear : leftEdge.Grounded bound ∨
          (leftEdge.complement = true ∨ leftEdge.Grounded bound) ∧
            (rightEdge.complement = true ∨ rightEdge.Grounded bound) := by
        rcases sides with ⟨signal, rfl⟩ | ⟨leftPolar, rightPolar⟩
        · cases builtLeft
          exact .inl (leftGrounded _ List.mem_cons_self)
        · exact .inr ⟨build_polar leftPolar leftGrounded builtLeft,
            build_polar rightPolar rightGrounded builtRight⟩
      have joins : ∀ operand, operand = leftEdge ∨ operand = rightEdge → bound ≤ operand.node →
          operand.node = edge.node ∨ next.network.Used operand.node := by
        intro operand isOperand new
        have apart := Edge.not_cancels positive clear isOperand new
        have nonzero : operand.node ≠ 0 := Nat.ne_of_gt (Nat.lt_of_lt_of_le positive new)
        have used := used_of_conjoin second.tracks.bookkeeping.toReferences isOperand apart nonzero
        obtain ⟨_, _, outcome⟩ := createAnd_eq (Rewriting.network_of_createAnd created)
        rwa [outcome] at used
      by_cases early : id < middle.network.size
      · rcases leftInduction leftFrugal leftGrounded tracks leftLive fits builtLeft beyond early with
          rfl | used
        · exact joins leftEdge (.inl rfl) (Nat.le_trans fits beyond)
        · exact .inr ((second.grown.trans joined.grown).used used)
      · by_cases between : id < last.network.size
        · rcases rightInduction rightFrugal rightGrounded first.tracks rightLive
            (Nat.le_trans fits first.grown.size) builtRight (Nat.le_of_not_lt early) between with
            rfl | used
          · exact joins rightEdge (.inr rfl) (Nat.le_trans fits beyond)
          · exact .inr (joined.grown.used used)
        · exact .inl (joined.latest id (Nat.le_of_not_lt between) inside)
  | not operand induction =>
      obtain ⟨inner, builtOperand, rfl⟩ := Rewriting.build_not_eq_ok.mp built
      have uses := induction frugal grounded tracks live fits builtOperand beyond inside
      exact uses

end Recipe

namespace Rule

open Aig

variable {view : DepthView Aig} {rule : Rule} {node : Nat} {recipe : Recipe}

theorem frugal_of_examine (references : view.network.References)
    (found : rule.examine view node = .found recipe) : recipe.Frugal := by
  cases rule with
  | associativity =>
      obtain ⟨_, _, _, _, _, order⟩ := regroups_of_matchAssociativity found
      rcases order with rfl | rfl <;> simp [Recipe.Frugal]
  | distributivity =>
      obtain ⟨_, _, _, _, _, _, rfl⟩ := factors_of_matchDistributivity references found
      simp [Recipe.nand, Recipe.or, Recipe.Frugal, Recipe.Polar]
  | threeLayerDistributivity =>
      obtain ⟨_, _, _, _, _, _, _, rfl⟩ := distributes_of_matchThreeLayer found
      simp [Recipe.nand, Recipe.Frugal, Recipe.Polar]

/-- A rule takes its signals from below the node, where no gate reads the
constant. -/
theorem grounded_of_examine (references : view.network.References)
    (acyclic : view.network.Acyclic) (found : rule.examine view node = .found recipe) :
    ∀ signal ∈ recipe.signals, signal.Grounded view.network.size := by
  obtain ⟨avoided, sidesteps⟩ := exists_sidesteps references acyclic found
  intro signal member
  obtain ⟨parent, _, reads⟩ := Relation.TransGen.tail'_iff.mp (sidesteps.below signal member)
  constructor
  · obtain ⟨fanins, stored, sides⟩ := reads_iff.mp reads
    obtain ⟨first, second⟩ := node_ne_zero_of_stored references stored
    rcases sides with same | same
    · exact same ▸ first
    · exact same ▸ second
  · exact references.closed parent signal.node reads

end Rule

namespace Aig

/-- A gate that is redirected reads the new node, or was merged with a gate
that does. -/
theorem exists_gateReads_rewireAll {aig : Aig} {substitution : Substitution} {gate : Nat}
    {gates : List Nat} {instead : List Substitution} (bookkeeping : aig.Bookkeeping)
    (applies : aig.applies substitution = true) (nonzero : substitution.new.node ≠ 0)
    (reads : aig.GateReads gate substitution.old) :
    ∃ reader, (aig.rewireAll substitution (gate :: gates) instead).1.GateReads reader
      substitution.new.node := by
  have different := (applies_iff.mp applies).1
  rw [rewireAll]
  rcases aig.rewire_cases gate substitution with
    ⟨unread, _⟩ | ⟨before, after, edge, stored, replaced, merged, outcome⟩ |
      ⟨before, after, stored, replaced, unmerged, outcome⟩
  · obtain ⟨fanins, stored, sides⟩ := reads
    obtain ⟨notFirst, notSecond⟩ := Fanins.replace?_eq_none_iff.mp (unread fanins stored)
    exact absurd sides (not_or.mpr ⟨notFirst, notSecond⟩)
  · rw [outcome]
    have here : ∃ reader, aig.GateReads reader substitution.new.node := by
      obtain ⟨kept, read, _, sides, rfl⟩ := Fanins.replace?_cases replaced
      have isKept : kept = before.first ∨ kept = before.second := by
        rcases sides with ⟨isSecond, _⟩ | ⟨isFirst, _⟩
        · exact .inr isSecond
        · exact .inl isFirst
      rcases merged?_eq_some_iff.mp merged with reduced | ⟨_, other, found, _, _⟩
      · -- What is left of the gate is on the new node, too.
        refine ⟨gate, before, stored, ?_⟩
        by_contra apart
        obtain ⟨first, second⟩ := node_ne_zero_of_stored bookkeeping.toReferences stored
        have keptApart : kept.node ≠ substitution.new.node ∧ kept.node ≠ 0 := by
          rcases isKept with rfl | rfl
          · exact ⟨fun same => apart (.inl same), first⟩
          · exact ⟨fun same => apart (.inr same), second⟩
        have irreducible :
            (Fanins.ordered kept (substitution.new.complementIf read.complement)).trivial? = none :=
          Fanins.trivial?_ordered_eq_none keptApart.1 keptApart.2 nonzero
        rw [irreducible] at reduced
        cases reduced
      · have hashed := bookkeeping.table_sound _ other found
        exact ⟨other, _, hashed, Fanins.node_ordered_iff.mpr (.inr rfl)⟩
    obtain ⟨reader, former⟩ := here
    have rest : Redirects substitution aig
        (aig.rewireAll substitution gates ([{ old := gate, new := edge }] ++ instead)).1 :=
      rewireAll_redirects (redirects_refl substitution bookkeeping) applies
    exact ⟨reader, rest.lost reader _ different former⟩
  · rw [outcome]
    have books := bookkeeping_setFanins bookkeeping applies stored replaced unmerged
    have still := (applies_setFanins after substitution stored).trans applies
    have rest : Redirects substitution (aig.setFanins gate before after substitution)
        ((aig.setFanins gate before after substitution).rewireAll substitution gates
          ([] ++ instead)).1 :=
      rewireAll_redirects (redirects_refl substitution books) still
    refine ⟨gate, rest.lost gate _ different ?_⟩
    apply (gateReads_setFanins_iff bookkeeping.toReferences stored replaced unmerged gate _).mpr
    exact .inr ⟨rfl, rfl⟩

theorem used_redirected {aig : Aig} {substitution : Substitution} (bookkeeping : aig.Bookkeeping)
    (applies : aig.applies substitution = true) (nonzero : substitution.new.node ≠ 0)
    (used : aig.Used substitution.old) :
    (aig.redirected substitution).Used substitution.new.node := by
  rcases used with ⟨reader, reads⟩ | output
  · left
    have member := ((bookkeeping.fanouts _).mem_iff reader).mpr reads
    unfold redirected
    cases fanouts : aig.fanouts substitution.old with
    | nil =>
        rw [fanouts] at member
        cases member
    | cons gate gates =>
        have listed : gate ∈ aig.fanouts substitution.old := by
          rw [fanouts]
          exact List.mem_cons_self
        have first := ((bookkeeping.fanouts _).mem_iff gate).mp listed
        apply exists_gateReads_rewireAll (bookkeeping_redirectOutputs bookkeeping applies)
          ((applies_redirectOutputs aig substitution).trans applies) nonzero
        exact (gateReads_of_gateFanins? _ (gateFanins?_redirectOutputs ..)).mpr first
  · exact .inr ((exists_output_redirected_iff applies).mpr (.inr ⟨rfl, output⟩))

/-- What dangles after one substitution had no use before its cone was
reclaimed. -/
theorem not_used_of_replaceUses {aig : Aig} {substitution : Substitution}
    (bookkeeping : aig.Bookkeeping) (applies : aig.applies substitution = true) {id : Nat}
    (dangling : ((aig.replaceUses substitution).aig.dangling? id).isSome = true) :
    ¬ (aig.redirected substitution).Used id := by
  obtain ⟨fanins, found⟩ := Option.isSome_iff_exists.mp dangling
  obtain ⟨former, _⟩ := dangling?_of_reclaim found
  have redirects := redirected_redirects bookkeeping applies
  exact ((dangling?_isSome_iff redirects.bookkeeping).mp
    (Option.isSome_iff_exists.mpr ⟨fanins, former⟩)).1

/-- A substitution leaves no gate dangling that was not dangling before. -/
theorem dangles_of_substitute {aig next : Aig} {fuel old : Nat} {new : Edge}
    {changes : List Change} (bookkeeping : aig.Bookkeeping)
    (substituted : aig.substitute fuel old new = .ok (next, changes)) {id : Nat}
    (dangles : next.Dangles id) : aig.Dangles id := by
  rw [dangles_iff_dangling?] at dangles ⊢
  exact (substitute_drains substituted).dangling bookkeeping dangles

end Aig

namespace Rewriting

open DepthView Aig

variable {parameters : Parameters} {first view found fresh : DepthView Aig}
  {rewrites gainless : Nat} {rule : Rule} {substitution : Substitution}

theorem Current.used_of_isCritical (current : Current view) {node : Nat}
    (critical : view.isCritical node = true) : view.network.Used node := by
  obtain ⟨root, isRoot, _, path⟩ := (isCritical_iff current.fresh).mp critical
  rcases Relation.ReflTransGen.cases_tail path with rfl | ⟨reader, _, tight⟩
  · obtain ⟨output, listed, read⟩ := List.mem_map.mp isRoot
    exact .inr ⟨output, Array.mem_toList_iff.mp listed, read⟩
  · exact .inl ⟨reader, reads_iff.mp tight.reads⟩

/-- Among the gates that were built for a rewrite, only the replacement can be
without a use. -/
theorem Finds.eq_of_not_used (current : Current view)
    (finds : Finds parameters view rule substitution found) {id : Nat}
    (beyond : view.network.size ≤ id) (inside : id < found.network.size)
    (unused : ¬ found.network.Used id) : id = substitution.new.node := by
  obtain ⟨recipe, examined, built, _⟩ := finds.recipe
  have references := current.bookkeeping.toReferences
  have acyclic : view.network.Acyclic := current.tracks.acyclic
  have positive : 0 < view.network.size := lt_size_of_node? current.ports.constant
  have uses := Recipe.build_uses (Rule.frugal_of_examine references examined) positive
    (Rule.grounded_of_examine references acyclic examined) current.tracks
    (Rule.computes_of_examine references examined).live (Nat.le_refl _) built beyond inside
  exact uses.resolve_right unused

/-- A gate that dangles after a rewrite dangled before it. -/
theorem Finds.dangles (current : Current view)
    (finds : Finds parameters view rule substitution found) {fuel : Nat} {next : Aig}
    {changes : List Change}
    (substituted : found.network.substitute fuel substitution.old substitution.new =
      .ok (next, changes)) {id : Nat} (dangles : next.Dangles id) : view.network.Dangles id := by
  have bookkeeping := finds.tracks.bookkeeping
  have applies := finds.applies current
  have there := dangles_of_substitute bookkeeping substituted dangles
  have unused := bookkeeping.fanoutSize_eq_zero_iff_not_used.mp there.2
  obtain ⟨fanins, stored⟩ := isGate_iff.mp there.1
  by_cases old : id < view.network.size
  · constructor
    · exact isGate_iff.mpr ⟨fanins, (finds.grown.gates id old).symm.trans stored⟩
    · apply current.bookkeeping.fanoutSize_eq_zero_iff_not_used.mpr
      exact fun used => unused (finds.grown.used used)
  · have isNew := finds.eq_of_not_used current (Nat.le_of_not_lt old)
      (lt_size_of_gateFanins? stored) unused
    have replaced : ((found.network.replaceUses substitution).aig.dangling? id).isSome = true := by
      cases substitute_drains substituted with
      | skip idle _ =>
          rw [applies] at idle
          cases idle
      | perform _ rest =>
          apply rest.dangling (replaceUses_bookkeeping bookkeeping applies)
          exact dangles_iff_dangling?.mp dangles
    obtain ⟨recipe, examined, _⟩ := finds.recipe
    have critical := Rule.isCritical_of_examine current.bookkeeping.toReferences examined
    have used := finds.grown.used (current.used_of_isCritical critical)
    have nonzero : substitution.new.node ≠ 0 := by
      have positive : 0 < view.network.size := lt_size_of_node? current.ports.constant
      omega
    rw [isNew] at replaced
    exact absurd (used_redirected bookkeeping applies nonzero used)
      (not_used_of_replaceUses bookkeeping applies replaced)

theorem Advances.dangles (start : Current first)
    (advances : Advances parameters first rewrites gainless view) {id : Nat}
    (dangles : view.network.Dangles id) : first.network.Dangles id := by
  induction advances with
  | start => exact dangles
  | rewrite earlier due substituted refreshed induction =>
      have current := earlier.current start
      obtain ⟨_, finds⟩ := finds_of_due current due
      obtain rfl := network_of_ofNetwork refreshed
      exact induction (finds.dangles current substituted dangles)

/-- Neither a substitution nor a rewriting run leaves a gate without a use that
had one before, or that was not there.  So a run on a graph where no gate
dangles leaves nothing to clean up. -/
theorem optimize_tidy {aig : Aig} (reachable : aig.Reachable) :
    (∀ (fuel old : Nat) (new : Edge) (next : Aig) (changes : List Change),
      aig.substitute fuel old new = .ok (next, changes) →
        ∀ id, next.Dangles id → aig.Dangles id) ∧
    ∀ (fuel : Nat) (parameters : Parameters) (run : Run Aig),
      optimize fuel parameters aig = .ok run →
        (∀ id, run.view.network.Dangles id → aig.Dangles id) ∧
        ((∀ id, ¬ aig.Dangles id) →
          (∀ id, ¬ run.view.network.Dangles id) ∧
            run.view.network.cleanup = run.view.network) := by
  constructor
  · intro fuel old new next changes substituted id dangles
    exact dangles_of_substitute reachable.bookkeeping substituted dangles
  · intro fuel parameters run optimized
    obtain ⟨first, _, seen, start, advances, _⟩ := optimize_advances reachable optimized
    obtain rfl := network_of_ofNetwork seen
    have kept : ∀ id, run.view.network.Dangles id → first.network.Dangles id :=
      fun id dangles => advances.dangles start dangles
    refine ⟨kept, fun tidy => ?_⟩
    have still : ∀ id, ¬ run.view.network.Dangles id :=
      fun id dangles => tidy id (kept id dangles)
    exact ⟨still, cleanup_eq_self still⟩

/-- Three layers of gates, the last of which is an output. -/
def layersSession : List Operation :=
  [.addInput, .addInput, .addInput, .addInput, .addInput,
    .createAnd (.plain 4) (.plain 5), .createAnd (.plain 6) (.plain 3),
    .createAnd (.plain 2) (Edge.plain 7).not, .createAnd (.plain 1) (Edge.plain 8).not,
    .addOutput (.plain 9)]

/-- A rewrite builds four gates, and each has a use.  Beside them a gate goes on
dangling that dangled before. -/
theorem optimize_tidy_threeLayers : ∃ (aig store next : Aig) (run other : Run Aig),
    aig.Reachable ∧ (∀ id, ¬ aig.Dangles id) ∧ optimize 20 {} aig = .ok run ∧
      run.statistics.threeLayerDistributivity = 1 ∧ run.view.network.size = aig.size + 4 ∧
      (∀ id, ¬ run.view.network.Dangles id) ∧ run.view.network.cleanup = run.view.network ∧
      store.Reachable ∧ optimize 20 {} store = .ok other ∧ other.view.network.Dangles 11 ∧
      (∃ changes, store.substitute 20 8 (.plain 7) = .ok (next, changes)) ∧
      next.Dangles 11 ∧ store.Dangles 11 := by
  have checked : (do
      let ended ← Aig.empty.session layersSession
      let more ← ended.1.session
        [.createAnd (.plain 1) (.plain 2), .createAnd (.plain 6) (.plain 10)]
      let run ← optimize 20 {} ended.1
      let other ← optimize 20 {} more.1
      let next ← more.1.substitute 20 8 (.plain 7)
      return (ended.1.gates.all fun id => ended.1.fanoutSize id != 0) &&
        decide (run.statistics.threeLayerDistributivity = 1 ∧
          run.view.network.size = ended.1.size + 4 ∧ other.view.network.isGate 11 = true ∧
          other.view.network.fanoutSize 11 = 0 ∧ next.1.isGate 11 = true ∧
          next.1.fanoutSize 11 = 0)) = .ok true := by
    decide +kernel
  obtain ⟨⟨aig, log⟩, ended, checked⟩ := bind_eq_ok.mp checked
  obtain ⟨⟨store, log'⟩, continued, checked⟩ := bind_eq_ok.mp checked
  obtain ⟨run, optimized, checked⟩ := bind_eq_ok.mp checked
  obtain ⟨other, optimized', checked⟩ := bind_eq_ok.mp checked
  obtain ⟨⟨next, changes⟩, substituted, results⟩ := bind_eq_ok.mp checked
  simp only [pure_eq_ok, Bool.and_eq_true, decide_eq_true_eq, List.all_eq_true, bne_iff_ne]
    at results
  obtain ⟨uses, fired, size, isGate, unused, isGate', unused'⟩ := results
  have evolves : Evolves .empty aig := evolves_of_session ended
  have evolves' : Evolves aig store := evolves_of_session continued
  have tidy : ∀ id, ¬ aig.Dangles id :=
    fun id dangles => uses id (mem_gates.mpr dangles.1) dangles.2
  have ran := (optimize_tidy evolves).2 20 {} run optimized
  obtain ⟨stays, clean⟩ := ran.2 tidy
  have reachable : store.Reachable := evolves.trans evolves'
  have before := (optimize_tidy reachable).1 20 8 (.plain 7) next changes substituted
  have dangled : store.Dangles 11 := before 11 ⟨isGate', unused'⟩
  exact ⟨aig, store, next, run, other, evolves, tidy, optimized, fired, size, stays, clean,
    reachable, optimized', ⟨isGate, unused⟩, ⟨changes, substituted⟩, ⟨isGate', unused'⟩, dangled⟩

end Rewriting

end AndInverter
