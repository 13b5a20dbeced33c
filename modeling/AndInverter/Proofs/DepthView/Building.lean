import AndInverter.Proofs.DepthView.Levels
import AndInverter.Proofs.Rewriting.Extension
import AndInverter.Proofs.Substitution.Operands

/-!
# Levels while gates are built

A gate that is built through a view has the level above its operands, and the
nodes that were there keep theirs.  So what a recipe builds is no higher than
the recipe, and the gates that it adds are lower still, the last one apart.
-/

namespace AndInverter

open Network

namespace DepthView

variable {view middle next : DepthView Aig}

/-- The levels of a view are those of its network as it is now. -/
structure Tracks (view : DepthView Aig) : Prop where
  bookkeeping : view.network.Bookkeeping
  ports : view.network.Ports
  levels : LevelsAgree view.network view.level
  known : view.levels.size = view.network.size

/-- Gates were added to a view; nothing else has changed. -/
structure Extends (view next : DepthView Aig) : Prop where
  grows : view.network.Grows next.network
  size : view.network.size ≤ next.network.size
  gates : ∀ id, id < view.network.size → next.network.gateFanins? id = view.network.gateFanins? id
  level : ∀ id, id < view.network.size → next.level id = view.level id
  outputs : next.network.outputs = view.network.outputs

theorem extends_refl (view : DepthView Aig) : view.Extends view :=
  { grows := fun _ _ stored => stored
    size := Nat.le_refl _
    gates := fun _ _ => rfl
    level := fun _ _ => rfl
    outputs := rfl }

theorem Extends.trans (first : view.Extends middle) (second : middle.Extends next) :
    view.Extends next := by
  constructor
  · exact first.grows.trans second.grows
  · exact Nat.le_trans first.size second.size
  · intro id inside
    rw [second.gates id (Nat.lt_of_lt_of_le inside first.size), first.gates id inside]
  · intro id inside
    rw [second.level id (Nat.lt_of_lt_of_le inside first.size), first.level id inside]
  · rw [second.outputs, first.outputs]

theorem Tracks.acyclic (tracks : view.Tracks) : view.network.Acyclic := by
  intro id cycle
  exact Nat.lt_irrefl _ (tracks.levels.lt_of_path cycle)

theorem Tracks.orderly (tracks : view.Tracks) : view.network.Orderly :=
  { bookkeeping := tracks.bookkeeping
    constant := tracks.ports.isGate_constant
    acyclic := tracks.acyclic }

/-- A gate is one level above the higher one of its fanins. -/
theorem level_gate {aig : Aig} {level : Nat → Nat} (agree : LevelsAgree aig level) {id : Nat}
    {fanins : Fanins} (stored : aig.gateFanins? id = some fanins) :
    level id = max (level fanins.first.node) (level fanins.second.node) + 1 := by
  have first := agree.above id _ (Aig.reads_iff.mpr ⟨fanins, stored, .inl rfl⟩)
  have second := agree.above id _ (Aig.reads_iff.mpr ⟨fanins, stored, .inr rfl⟩)
  have present : children aig id ≠ [] := by
    apply List.ne_nil_of_mem
    exact Aig.reads_iff.mpr ⟨fanins, stored, .inl rfl⟩
  obtain ⟨child, reads, highest⟩ := agree.attained id present
  obtain ⟨pair, found, sides⟩ := Aig.reads_iff.mp reads
  rw [stored] at found
  cases found
  rcases sides with rfl | rfl <;> omega

theorem level_of_not_isGate {aig : Aig} {level : Nat → Nat} (agree : LevelsAgree aig level)
    {id : Nat} (noGate : aig.isGate id = false) : level id = 0 := by
  apply agree.leaf
  apply List.eq_nil_iff_forall_not_mem.mpr
  intro child reads
  obtain ⟨fanins, stored, _⟩ := Aig.reads_iff.mp reads
  rw [Aig.isGate, stored] at noGate
  cases noGate

private theorem max_ordered (level : Nat → Nat) (left right : Edge) :
    max (level (Fanins.ordered left right).first.node)
        (level (Fanins.ordered left right).second.node) =
      max (level left.node) (level right.node) := by
  unfold Fanins.ordered
  split
  · exact Nat.max_comm _ _
  · rfl

theorem getD_extend {Entry : Type} (table : Array Entry) (size id : Nat) (default : Entry) :
    (extend table size default).getD id default = table.getD id default := by
  simp only [extend, Array.getD_eq_getD_getElem?, Array.getElem?_append, Array.getElem?_replicate]
  split
  · rfl
  · rename_i beyond
    rw [Array.getElem?_eq_none (Nat.le_of_not_lt beyond)]
    split <;> rfl

theorem size_extend {Entry : Type} (table : Array Entry) {size : Nat} (default : Entry)
    (fits : table.size ≤ size) : (extend table size default).size = size := by
  rw [extend, Array.size_append, Array.size_replicate]
  omega

/-- A view once a gate that it did not know has been added. -/
def addGate (view : DepthView Aig) (left right : Edge) : DepthView Aig :=
  { view with network := (view.network.addGate (Fanins.ordered left right)).2 }.assignLevel
    left right (.plain view.network.size)

theorem network_addGate (view : DepthView Aig) (left right : Edge) :
    (view.addGate left right).network =
      (view.network.addGate (Fanins.ordered left right)).2 :=
  Rewriting.network_assignLevel ..

theorem size_addGate (view : DepthView Aig) (left right : Edge) :
    (view.addGate left right).network.size = view.network.size + 1 := by
  rw [network_addGate, Aig.size_addGate]

theorem gateFanins?_addGate (view : DepthView Aig) (left right : Edge) (id : Nat) :
    (view.addGate left right).network.gateFanins? id =
      if id = view.network.size then some (Fanins.ordered left right)
      else view.network.gateFanins? id := by
  rw [network_addGate, Aig.gateFanins?_addGate]

theorem levels_addGate (known : view.levels.size = view.network.size) (left right : Edge) :
    (view.addGate left right).levels =
      (extend view.levels (view.network.size + 1) 0).setIfInBounds view.network.size
        (max (view.level left.node) (view.level right.node) + 1) := by
  have unknown : ¬ (Edge.plain view.network.size).node < view.levels.size := by
    rw [known]
    exact Nat.lt_irrefl _
  unfold addGate assignLevel
  rw [if_neg unknown]
  show (extend view.levels (view.network.addGate _).2.size 0).setIfInBounds _ _ = _
  rw [Aig.size_addGate]
  rfl

theorem level_addGate (known : view.levels.size = view.network.size) (left right : Edge)
    (id : Nat) : (view.addGate left right).level id =
      if id = view.network.size then max (view.level left.node) (view.level right.node) + 1
      else view.level id := by
  rw [level, levels_addGate known, getD_setIfInBounds, getD_extend, size_extend _ _ (by omega)]
  by_cases latest : id = view.network.size
  · rw [if_pos latest, if_pos ⟨latest.symm, by omega⟩]
  · rw [if_neg latest, if_neg fun same => latest same.1.symm]
    rfl

theorem size_levels_addGate (known : view.levels.size = view.network.size) (left right : Edge) :
    (view.addGate left right).levels.size = (view.addGate left right).network.size := by
  rw [levels_addGate known, Array.size_setIfInBounds, size_extend _ _ (by omega), size_addGate]

private theorem reads_addGate_of_ne {aig : Aig} {fanins : Fanins} {id child : Nat}
    (old : id ≠ aig.size) :
    Reads (aig.addGate fanins).2 id child ↔ Reads aig id child := by
  rw [Aig.reads_iff, Aig.reads_iff, Aig.gateFanins?_addGate, if_neg old]

private theorem reads_addGate_size {aig : Aig} {fanins : Fanins} {child : Nat} :
    Reads (aig.addGate fanins).2 aig.size child ↔
      fanins.first.node = child ∨ fanins.second.node = child := by
  rw [Aig.reads_iff, Aig.gateFanins?_addGate, if_pos rfl]
  simp

theorem levelsAgree_addGate {aig : Aig} (references : aig.References) {level later : Nat → Nat}
    (agree : LevelsAgree aig level) {fanins : Fanins}
    (firstLive : aig.isDead fanins.first.node = false)
    (secondLive : aig.isDead fanins.second.node = false)
    (latest : later aig.size =
      max (level fanins.first.node) (level fanins.second.node) + 1)
    (others : ∀ id, id ≠ aig.size → later id = level id) :
    LevelsAgree (aig.addGate fanins).2 later := by
  have same : ∀ id, aig.isDead id = false → later id = level id :=
    fun id live => others id (Nat.ne_of_lt (Aig.lt_size_of_live live))
  constructor
  · intro id leaf
    have unread : ∀ child, ¬ Reads (aig.addGate fanins).2 id child := by
      intro child reads
      rw [Reads, leaf] at reads
      cases reads
    have old : id ≠ aig.size := by
      rintro rfl
      exact unread _ (reads_addGate_size.mpr (.inl rfl))
    rw [others id old]
    apply agree.leaf
    apply List.eq_nil_iff_forall_not_mem.mpr
    exact fun child reads => unread child ((reads_addGate_of_ne old).mpr reads)
  · intro id child reads
    by_cases new : id = aig.size
    · subst new
      rcases reads_addGate_size.mp reads with rfl | rfl
      · rw [latest, same _ firstLive]
        omega
      · rw [latest, same _ secondLive]
        omega
    · have former := (reads_addGate_of_ne new).mp reads
      rw [others id new, same child (references.fanins_live id child (Aig.reads_iff.mp former))]
      exact agree.above id child former
  · intro id present
    by_cases new : id = aig.size
    · subst new
      rcases Nat.le_total (level fanins.first.node) (level fanins.second.node) with low | low
      · refine ⟨fanins.second.node, reads_addGate_size.mpr (.inr rfl), ?_⟩
        rw [latest, same _ secondLive, Nat.max_eq_right low]
      · refine ⟨fanins.first.node, reads_addGate_size.mpr (.inl rfl), ?_⟩
        rw [latest, same _ firstLive, Nat.max_eq_left low]
    · obtain ⟨some, reads⟩ := List.exists_mem_of_ne_nil _ present
      obtain ⟨child, highest, equal⟩ :=
        agree.attained id (List.ne_nil_of_mem ((reads_addGate_of_ne new).mp reads))
      refine ⟨child, (reads_addGate_of_ne new).mpr highest, ?_⟩
      rw [others id new, same child (references.fanins_live id child (Aig.reads_iff.mp highest)),
        equal]

/-- The outcome of building a gate: its level is the one above its operands,
or it is an edge to a node that is no higher than they are. -/
structure Conjoins (view : DepthView Aig) (left right edge : Edge) (next : DepthView Aig) :
    Prop where
  tracks : next.Tracks
  grown : view.Extends next
  live : next.network.isDead edge.node = false
  height : next.level edge.node ≤ max (view.level left.node) (view.level right.node) ∨
    edge.complement = false ∧
      next.level edge.node = max (view.level left.node) (view.level right.node) + 1
  size : next.network.size ≤ view.network.size + 1
  latest : ∀ id, view.network.size ≤ id → id < next.network.size → id = edge.node

theorem createAnd_eq_ok {left right : Edge} (leftLive : view.network.isDead left.node = false)
    (rightLive : view.network.isDead right.node = false) :
    view.createAnd left right = .ok ((view.network.conjoin left right).1,
      { view with network := (view.network.conjoin left right).2 }.assignLevel left right
        (view.network.conjoin left right).1) := by
  show (view.network.createAnd left right >>= _) = _
  rw [Aig.createAnd, leftLive, rightLive]
  rfl

private theorem assignLevel_of_lt {left right gate : Edge} (known : gate.node < view.levels.size) :
    view.assignLevel left right gate = view :=
  if_pos known

theorem conjoins_self (tracks : view.Tracks) {left right edge : Edge}
    (live : view.network.isDead edge.node = false)
    (height : view.level edge.node ≤ max (view.level left.node) (view.level right.node) ∨
      edge.complement = false ∧
        view.level edge.node = max (view.level left.node) (view.level right.node) + 1) :
    view.Conjoins left right edge view :=
  { tracks := tracks
    grown := extends_refl view
    live := live
    height := height
    size := Nat.le_succ _
    latest := fun _ beyond inside => absurd beyond (Nat.not_le_of_lt inside) }

theorem extends_addGate (known : view.levels.size = view.network.size) {left right : Edge}
    (grows : view.network.Grows (view.addGate left right).network) :
    view.Extends (view.addGate left right) := by
  refine { grows := grows, size := ?_, gates := ?_, level := ?_, outputs := ?_ }
  · rw [size_addGate]
    exact Nat.le_succ _
  · intro id inside
    rw [gateFanins?_addGate, if_neg (Nat.ne_of_lt inside)]
  · intro id inside
    rw [level_addGate known, if_neg (Nat.ne_of_lt inside)]
  · rw [network_addGate]
    rfl

/-- A gate that was missing is one level above its operands. -/
theorem conjoins_addGate (tracks : view.Tracks) {left right : Edge}
    (leftLive : view.network.isDead left.node = false)
    (rightLive : view.network.isDead right.node = false)
    (added : view.network.conjoin left right =
      (.plain view.network.size, (view.network.addGate (Fanins.ordered left right)).2)) :
    view.Conjoins left right (.plain view.network.size) (view.addGate left right) := by
  have edits : Aig.Edits (fun _ => True) view.network (view.network.conjoin left right).2 :=
    Aig.conjoin_edits leftLive rightLive
  have grows := Aig.conjoin_grows view.network left right
  rw [added] at edits grows
  rw [← network_addGate] at edits grows
  have level := level_addGate tracks.known left right
  constructor
  · constructor
    · exact edits.bookkeeping tracks.bookkeeping
    · exact edits.ports tracks.ports
    · obtain ⟨firstLive, secondLive⟩ := Aig.live_ordered leftLive rightLive
      rw [network_addGate]
      apply levelsAgree_addGate tracks.bookkeeping.toReferences tracks.levels firstLive secondLive
      · rw [level, if_pos rfl, max_ordered]
      · intro id old
        rw [level, if_neg old]
    · exact size_levels_addGate tracks.known left right
  · exact extends_addGate tracks.known grows
  · rw [network_addGate]
    exact Aig.isDead_eq_false_iff.mpr ⟨_, (Aig.node?_addGate ..).trans (if_pos rfl)⟩
  · right
    refine ⟨rfl, ?_⟩
    rw [level]
    exact if_pos rfl
  · rw [size_addGate]
  · intro id beyond inside
    rw [size_addGate] at inside
    show id = view.network.size
    omega

theorem createAnd_conjoins (tracks : view.Tracks) {left right : Edge}
    (leftLive : view.network.isDead left.node = false)
    (rightLive : view.network.isDead right.node = false) :
    ∃ edge next, view.createAnd left right = .ok (edge, next) ∧
      view.Conjoins left right edge next := by
  rw [createAnd_eq_ok leftLive rightLive]
  -- An edge that was there has its level already.
  have found : ∀ {edge : Edge}, view.network.isDead edge.node = false →
      view.assignLevel left right edge = view := by
    intro edge live
    exact assignLevel_of_lt (tracks.known ▸ Aig.lt_size_of_live live)
  rcases view.network.conjoin_cases left right with
    ⟨edge, reduced, outcome⟩ | ⟨gate, stored, outcome⟩ | ⟨irreducible, missing, outcome⟩
  · obtain ⟨firstLive, secondLive⟩ := Aig.live_ordered leftLive rightLive
    have live := Aig.live_of_trivial? tracks.ports secondLive reduced
    rw [outcome, found live]
    refine ⟨edge, view, rfl, conjoins_self tracks live (.inl ?_)⟩
    rw [← max_ordered view.level left right]
    rcases Fanins.node_of_trivial? reduced with zero | second
    · rw [zero, level_of_not_isGate tracks.levels tracks.ports.isGate_constant]
      exact Nat.zero_le _
    · rw [second]
      exact Nat.le_max_right _ _
  · have hashed := tracks.bookkeeping.table_sound _ gate stored
    have live : view.network.isDead (Edge.plain gate).node = false :=
      Aig.isDead_of_gateFanins? hashed
    rw [outcome, found live]
    refine ⟨.plain gate, view, rfl, conjoins_self tracks live (.inr ⟨rfl, ?_⟩)⟩
    rw [← max_ordered view.level left right]
    exact level_gate tracks.levels hashed
  · have conjoins := conjoins_addGate tracks leftLive rightLive outcome
    rw [outcome]
    exact ⟨_, _, rfl, conjoins⟩

end DepthView

namespace Recipe

/-- The level that a recipe has over the given levels of its signals. -/
def height (level : Nat → Nat) : Recipe → Nat
  | .signal edge => level edge.node
  | .and left right => max (left.height level) (right.height level) + 1
  | .not operand => operand.height level

def joins : Recipe → Nat
  | .signal _ => 0
  | .and left right => left.joins + right.joins + 1
  | .not operand => operand.joins

def negated : Recipe → Bool
  | .signal edge => edge.complement
  | .and _ _ => false
  | .not operand => !operand.negated

theorem height_congr {recipe : Recipe} {level later : Nat → Nat}
    (same : ∀ signal ∈ recipe.signals, later signal.node = level signal.node) :
    recipe.height later = recipe.height level := by
  induction recipe with
  | signal edge => exact same edge List.mem_cons_self
  | and left right leftInduction rightInduction =>
      rw [height, height,
        leftInduction fun signal member => same signal (List.mem_append_left _ member),
        rightInduction fun signal member => same signal (List.mem_append_right _ member)]
  | not operand induction => exact induction same

/-- The outcome of building a recipe: an edge to a node that is no higher than
the recipe.  The other nodes that are new are lower, and a node of the same
height is read with the recipe's polarity. -/
structure Builds (view : DepthView Aig) (recipe : Recipe) (edge : Edge)
    (next : DepthView Aig) : Prop where
  tracks : next.Tracks
  grown : view.Extends next
  live : next.network.isDead edge.node = false
  height : next.level edge.node ≤ recipe.height view.level
  polarity : next.level edge.node = recipe.height view.level → edge.complement = recipe.negated
  size : next.network.size ≤ view.network.size + recipe.joins
  lower : ∀ id, view.network.size ≤ id → id < next.network.size →
    id = edge.node ∨ next.level id < recipe.height view.level

/-- Building both operands, then their conjunction. -/
theorem Builds.and {left right : Recipe} {view middle last next : DepthView Aig}
    {leftEdge rightEdge edge : Edge} (first : left.Builds view leftEdge middle)
    (second : right.Builds middle rightEdge last)
    (joined : last.Conjoins leftEdge rightEdge edge next)
    (same : right.height middle.level = right.height view.level) :
    (Recipe.and left right).Builds view edge next := by
  have leftHeight : last.level leftEdge.node ≤ left.height view.level :=
    (second.grown.level _ (Aig.lt_size_of_live first.live)).trans_le first.height
  have rightHeight : last.level rightEdge.node ≤ right.height view.level :=
    same ▸ second.height
  have below : ∀ id, view.network.size ≤ id → id < last.network.size →
      last.level id ≤ max (left.height view.level) (right.height view.level) := by
    intro id beyond inside
    by_cases early : id < middle.network.size
    · rw [second.grown.level id early]
      have height := first.height
      rcases first.lower id beyond early with rfl | low <;> omega
    · rcases second.lower id (Nat.le_of_not_lt early) inside with rfl | low <;> omega
  constructor
  · exact joined.tracks
  · exact (first.grown.trans second.grown).trans joined.grown
  · exact joined.live
  · rw [Recipe.height]
    rcases joined.height with low | ⟨_, top⟩ <;> omega
  · intro equal
    rw [Recipe.height] at equal
    rcases joined.height with low | ⟨plain, _⟩
    · omega
    · exact plain
  · calc next.network.size ≤ last.network.size + 1 := joined.size
      _ ≤ middle.network.size + right.joins + 1 := Nat.succ_le_succ second.size
      _ ≤ view.network.size + (left.joins + right.joins + 1) := by
        have sizes := first.size
        omega
  · intro id beyond inside
    by_cases early : id < last.network.size
    · right
      rw [joined.grown.level id early]
      exact Nat.lt_succ_of_le (below id beyond early)
    · exact .inl (joined.latest id (Nat.le_of_not_lt early) inside)

theorem build_builds {recipe : Recipe} {view : DepthView Aig} (tracks : view.Tracks)
    (live : ∀ signal ∈ recipe.signals, view.network.isDead signal.node = false) :
    ∃ edge next, recipe.build view = .ok (edge, next) ∧ recipe.Builds view edge next := by
  induction recipe generalizing view with
  | signal signal =>
      refine ⟨signal, view, rfl, ?_⟩
      exact { tracks := tracks
              grown := DepthView.extends_refl view
              live := live signal List.mem_cons_self
              height := Nat.le_refl _
              polarity := fun _ => rfl
              size := Nat.le_refl _
              lower := fun id beyond inside => absurd beyond (Nat.not_le_of_lt inside) }
  | and left right leftInduction rightInduction =>
      have leftSignals : ∀ signal ∈ left.signals, view.network.isDead signal.node = false :=
        fun signal member => live signal (List.mem_append_left _ member)
      have rightSignals : ∀ signal ∈ right.signals, view.network.isDead signal.node = false :=
        fun signal member => live signal (List.mem_append_right _ member)
      obtain ⟨leftEdge, middle, builtLeft, first⟩ := leftInduction tracks leftSignals
      obtain ⟨rightEdge, last, builtRight, second⟩ := rightInduction first.tracks
        fun signal member => first.grown.grows.live (rightSignals signal member)
      obtain ⟨edge, next, created, joined⟩ := DepthView.createAnd_conjoins second.tracks
        (second.grown.grows.live first.live) second.live
      refine ⟨edge, next, ?_, first.and second joined ?_⟩
      · exact Rewriting.build_and_eq_ok.mpr
          ⟨leftEdge, middle, rightEdge, last, builtLeft, builtRight, created⟩
      · apply height_congr
        intro signal member
        exact first.grown.level _ (Aig.lt_size_of_live (rightSignals signal member))
  | not operand induction =>
      obtain ⟨edge, next, built, builds⟩ := induction tracks live
      refine ⟨edge.not, next, ?_, ?_⟩
      · exact Rewriting.build_not_eq_ok.mpr ⟨edge, built, rfl⟩
      · refine { builds with polarity := ?_ }
        intro equal
        rw [negated, ← builds.polarity equal]
        exact Bool.xor_true _

end Recipe

end AndInverter
