import AndInverter.DepthView.LongestPath
import AndInverter.DepthView.Marking
import AndInverter.Network.Table
import AndInverter.Proofs.DepthView.Refreshing

/-!
# Critical paths

A walk loses at least one level with every fanin that it takes, so the walks
as long as the network is deep are those that start from a deepest output and
lose one level at a time.  These are the steps that marks take, in whichever
order nodes are looked at.
-/

namespace AndInverter

open Network

variable {Store : Type} [Network Store] {network : Store} {level : Nat → Nat}

namespace Network

/-- The second node is a fanin of the first and one level below it. -/
structure Tight (network : Store) (level : Nat → Nat) (source target : Nat) : Prop where
  reads : Reads network source target
  next : level target + 1 = level source

/-- Fanins one level lower lead from an output of the given level to a node. -/
def OnDeepest (network : Store) (level : Nat → Nat) (depth id : Nat) : Prop :=
  ∃ root ∈ roots network, level root = depth ∧
    Relation.ReflTransGen (Tight network level) root id

theorem OnDeepest.tail {depth id child : Nat} (deepest : OnDeepest network level depth id)
    (tight : Tight network level id child) : OnDeepest network level depth child := by
  obtain ⟨root, isRoot, height, path⟩ := deepest
  exact ⟨root, isRoot, height, path.tail tight⟩

/-- A walk is no longer than the levels that it loses. -/
theorem LevelsAgree.walk_le (agree : LevelsAgree network level) {length source target : Nat}
    (walk : Walk network length source target) : length + level target ≤ level source := by
  induction walk with
  | here id => exact Nat.le_of_eq (Nat.zero_add _)
  | @step length source middle target reads _ induction =>
      have above := agree.above source middle reads
      omega

theorem LevelsAgree.tight_of_walk (agree : LevelsAgree network level)
    {length source target : Nat} (walk : Walk network length source target)
    (full : length + level target = level source) :
    Relation.ReflTransGen (Tight network level) source target := by
  induction walk with
  | here id => exact .refl
  | @step length source middle target reads rest induction =>
      have above := agree.above source middle reads
      have below := agree.walk_le rest
      have tight : Tight network level source middle := ⟨reads, by omega⟩
      apply Relation.ReflTransGen.head tight
      apply induction
      omega

theorem exists_walk_of_tight {source target : Nat}
    (path : Relation.ReflTransGen (Tight network level) source target) :
    ∃ length, Walk network length source target ∧ length + level target = level source := by
  induction path using Relation.ReflTransGen.head_induction_on with
  | refl => exact ⟨0, .here target, Nat.zero_add _⟩
  | head tight _ induction =>
      obtain ⟨length, walk, full⟩ := induction
      have next := tight.next
      exact ⟨length + 1, .step tight.reads walk, by omega⟩

theorem LevelsAgree.exists_walk_to_leaf (agree : LevelsAgree network level) (id : Nat) :
    ∃ leaf, children network leaf = [] ∧ Walk network (level id) id leaf := by
  induction height : level id generalizing id with
  | zero =>
      refine ⟨id, ?_, .here id⟩
      apply List.eq_nil_iff_forall_not_mem.mpr
      intro child reads
      have above := agree.above id child reads
      omega
  | succ below induction =>
      have present : children network id ≠ [] := by
        intro leaf
        have ground := agree.leaf id leaf
        omega
      obtain ⟨child, reads, highest⟩ := agree.attained id present
      obtain ⟨leaf, isLeaf, walk⟩ := induction child (by omega)
      exact ⟨leaf, isLeaf, .step reads walk⟩

variable {depth : Nat}

/-- The walks as long as the network is deep go through just these nodes. -/
theorem LevelsAgree.onDeepest_iff_onWalk (agree : LevelsAgree network level)
    (bound : ∀ root ∈ roots network, level root ≤ depth) {id : Nat} :
    OnDeepest network level depth id ↔ DepthView.OnWalk network depth id := by
  constructor
  · intro deepest
    obtain ⟨root, isRoot, height, path⟩ := deepest
    obtain ⟨above, walk, full⟩ := exists_walk_of_tight path
    obtain ⟨leaf, isLeaf, down⟩ := agree.exists_walk_to_leaf id
    exact ⟨root, isRoot, above, level id, leaf, walk, down, isLeaf, full.trans height⟩
  · intro onWalk
    obtain ⟨root, isRoot, above, below, leaf, walk, down, isLeaf, total⟩ := onWalk
    have upper := agree.walk_le walk
    have lower := agree.walk_le down
    have top := bound root isRoot
    refine ⟨root, isRoot, by omega, ?_⟩
    apply agree.tight_of_walk walk
    omega

/-- The level of a node and the longest way to it from above add up to the
depth for just these nodes. -/
theorem LevelsAgree.onDeepest_iff_longestAbove (agree : LevelsAgree network level)
    (bound : ∀ root ∈ roots network, level root ≤ depth) {id : Nat} :
    OnDeepest network level depth id ↔
      ∃ above, DepthView.LongestAbove network id above ∧ level id + above = depth := by
  constructor
  · intro deepest
    obtain ⟨root, isRoot, height, path⟩ := deepest
    obtain ⟨above, walk, full⟩ := exists_walk_of_tight path
    refine ⟨above, ⟨⟨root, isRoot, walk⟩, ?_⟩, by omega⟩
    intro top isTop other longer
    have upper := agree.walk_le longer
    have lower := bound top isTop
    omega
  · intro longest
    obtain ⟨above, ⟨⟨root, isRoot, walk⟩, _⟩, total⟩ := longest
    have upper := agree.walk_le walk
    have top := bound root isRoot
    refine ⟨root, isRoot, by omega, ?_⟩
    apply agree.tight_of_walk walk
    omega

end Network

namespace DepthView

/-! ### New views -/

private theorem size_foldl_markBelow {levels : Array Nat} {marks : Array Bool} (nodes : List Nat) :
    (nodes.foldl (markBelow network levels) marks).size = marks.size := by
  induction nodes generalizing marks with
  | nil => rfl
  | cons node nodes induction => rw [List.foldl_cons, induction, size_markBelow]

theorem size_critical {view : DepthView Store} (seen : ofNetwork network = .ok view) :
    view.critical.size = size network := by
  obtain ⟨nodes, _, _, rfl⟩ := exists_order_of_ofNetwork seen
  show (criticalOf _ _ _).size = _
  unfold criticalOf
  rw [size_foldl_markBelow, List.foldl_filter, size_markEach, Array.size_replicate]

/-- Marks spread from the deepest outputs to all that is on a longest path
below them, and no further. -/
theorem isCritical_iff {view : DepthView Store} (seen : ofNetwork network = .ok view) {id : Nat} :
    view.isCritical id = true ↔ OnDeepest network view.level view.depth id := by
  have truthful := truthful_of_ofNetwork seen
  have inside := (bounded_of_ofNetwork seen).roots
  obtain ⟨nodes, ordered, members, rfl⟩ := exists_order_of_ofNetwork seen
  constructor
  · intro marked
    unfold isCritical criticalOf at marked
    refine foldl_markBelow_keep _ _ ?_ (fun root isMarked => ?_) marked
    · intro node child deepest reads next
      exact deepest.tail ⟨reads, next⟩
    · obtain ⟨isRoot, height, _⟩ := getD_deepest.mp isMarked
      exact ⟨root, isRoot, height, .refl⟩
  · intro deepest
    obtain ⟨root, isRoot, height, path⟩ := deepest
    induction path with
    | refl =>
        unfold isCritical criticalOf
        apply getD_foldl_markBelow_of_marked
        exact getD_deepest.mpr ⟨isRoot, height, inside root isRoot⟩
    | tail _ tight induction => exact truthful.descends _ _ induction tight.reads tight.next

/-! ### The search -/

/-- What is marked or waits on the stack lies on a longest path.  The deepest
outputs are among it, and so is what marked nodes hand their mark down to. -/
structure Searching (network : Store) (levels : Array Nat) (depth : Nat) (stack : List Nat)
    (marks : Array Bool) : Prop where
  known : marks.size = size network
  inside : ∀ id ∈ stack, id < size network
  deepest : ∀ id, marks.getD id false = true ∨ id ∈ stack →
    OnDeepest network (levels.getD · 0) depth id
  starts : ∀ root ∈ roots network, levels.getD root 0 = depth →
    marks.getD root false = true ∨ root ∈ stack
  descends : ∀ id child, marks.getD id false = true →
    Tight network (levels.getD · 0) id child → marks.getD child false = true ∨ child ∈ stack

variable {levels : Array Nat} {depth : Nat} {stack : List Nat} {marks : Array Bool} {id : Nat}

theorem Searching.skip (searching : Searching network levels depth (id :: stack) marks)
    (marked : marks.getD id false = true) : Searching network levels depth stack marks := by
  have waits : ∀ {other}, marks.getD other false = true ∨ other ∈ id :: stack →
      marks.getD other false = true ∨ other ∈ stack := by
    intro other either
    rcases either with already | waiting
    · exact .inl already
    · rcases List.mem_cons.mp waiting with rfl | later
      · exact .inl marked
      · exact .inr later
  constructor
  · exact searching.known
  · exact fun other member => searching.inside other (List.mem_cons_of_mem _ member)
  · intro other either
    exact searching.deepest other (either.imp_right (List.mem_cons_of_mem _))
  · exact fun root isRoot height => waits (searching.starts root isRoot height)
  · exact fun other child marked tight => waits (searching.descends other child marked tight)

private theorem mem_unmarkedBelow {child : Nat} :
    child ∈ unmarkedBelow network levels marks id ↔
      ¬ marks.getD child false = true ∧ Tight network (levels.getD · 0) id child := by
  simp only [unmarkedBelow, List.mem_filter, Bool.and_eq_true, Bool.not_eq_true',
    Bool.not_eq_true, beq_iff_eq]
  constructor
  · intro kept
    exact ⟨kept.2.1, kept.1, kept.2.2⟩
  · intro kept
    exact ⟨kept.2.reads, kept.1, kept.2.next⟩

theorem Searching.mark (searching : Searching network levels depth (id :: stack) marks)
    (closed : Closed network) :
    Searching network levels depth
      ((unmarkedBelow network levels (marks.setIfInBounds id true) id).reverse ++ stack)
      (marks.setIfInBounds id true) := by
  have inside : id < marks.size := by
    rw [searching.known]
    exact searching.inside id List.mem_cons_self
  have marked : ∀ {other}, (marks.setIfInBounds id true).getD other false = true ↔
      other = id ∨ marks.getD other false = true := by
    intro other
    rw [getD_setIfInBounds]
    by_cases same : id = other
    · subst same
      simp [inside]
    · simp [same, Ne.symm same]
  have waits : ∀ {other}, marks.getD other false = true ∨ other ∈ id :: stack →
      (marks.setIfInBounds id true).getD other false = true ∨
        other ∈ (unmarkedBelow network levels (marks.setIfInBounds id true) id).reverse ++
          stack := by
    intro other either
    rcases either with already | waiting
    · exact .inl (marked.mpr (.inr already))
    · rcases List.mem_cons.mp waiting with rfl | later
      · exact .inl (marked.mpr (.inl rfl))
      · exact .inr (List.mem_append_right _ later)
  have here := searching.deepest id (.inr List.mem_cons_self)
  constructor
  · exact Array.size_setIfInBounds.trans searching.known
  · intro other member
    rcases List.mem_append.mp member with pushed | waiting
    · have tight := (mem_unmarkedBelow.mp (List.mem_reverse.mp pushed)).2
      exact closed id other tight.reads
    · exact searching.inside other (List.mem_cons_of_mem _ waiting)
  · intro other either
    rcases either with isMarked | member
    · rcases marked.mp isMarked with rfl | already
      · exact here
      · exact searching.deepest other (.inl already)
    · rcases List.mem_append.mp member with pushed | waiting
      · exact here.tail (mem_unmarkedBelow.mp (List.mem_reverse.mp pushed)).2
      · exact searching.deepest other (.inr (List.mem_cons_of_mem _ waiting))
  · exact fun root isRoot height => waits (searching.starts root isRoot height)
  · intro other child isMarked tight
    rcases marked.mp isMarked with rfl | already
    · by_cases done : (marks.setIfInBounds other true).getD child false = true
      · exact .inl done
      · right
        apply List.mem_append_left
        exact List.mem_reverse.mpr (mem_unmarkedBelow.mpr ⟨done, tight⟩)
    · exact waits (searching.descends other child already tight)

theorem Searching.exists_ended (closed : Closed network)
    (searching : Searching network levels depth stack marks) :
    ∃ ended, markStack network levels stack marks = .ok ended ∧
      Searching network levels depth [] ended := by
  induction stack, marks using markStack.induct network levels with
  | case1 marks =>
      rw [markStack]
      exact ⟨marks, rfl, searching⟩
  | case2 marks id stack unknown =>
      have inside := searching.inside id List.mem_cons_self
      rw [← searching.known] at inside
      rw [Array.getElem?_eq_getElem inside] at unknown
      cases unknown
  | case3 marks id stack found induction =>
      have marked : marks.getD id false = true := by
        rw [Array.getD_eq_getD_getElem?, found]
        rfl
      obtain ⟨ended, result, last⟩ := induction (searching.skip marked)
      refine ⟨ended, ?_, last⟩
      rw [markStack, ← result]
      split
      · simp_all
      · rfl
      · simp_all
  | case4 marks id stack found outside =>
      obtain ⟨child, reads, beyond⟩ := List.any_eq_true.mp outside
      have inside := closed id child reads
      rw [← searching.known] at inside
      exact absurd (of_decide_eq_true beyond) (Nat.not_le_of_lt inside)
  | case5 marks id stack found inside marked induction =>
      obtain ⟨ended, result, last⟩ := induction (searching.mark closed)
      refine ⟨ended, ?_, last⟩
      rw [markStack, ← result]
      split
      · simp_all
      · simp_all
      · rw [if_neg inside]

theorem Searching.marked_iff (ended : Searching network levels depth [] marks) :
    marks.getD id false = true ↔ OnDeepest network (levels.getD · 0) depth id := by
  constructor
  · exact fun marked => ended.deepest id (.inl marked)
  · intro deepest
    obtain ⟨root, isRoot, height, path⟩ := deepest
    induction path with
    | refl => exact (ended.starts root isRoot height).resolve_right List.not_mem_nil
    | tail _ tight induction =>
        exact (ended.descends _ _ induction tight).resolve_right List.not_mem_nil

theorem searching_start (levels : Array Nat)
    (inside : ∀ root ∈ roots network, root < size network) :
    Searching network levels (depthOf network levels)
      ((roots network).filter fun id => levels.getD id 0 = depthOf network levels).reverse
      (Array.replicate (size network) false) := by
  have blank : ∀ id, ¬ (Array.replicate (size network) false).getD id false = true :=
    fun id => Bool.not_eq_true _ ▸ getD_blank _ id
  constructor
  · exact Array.size_replicate
  · intro id member
    exact inside id (List.mem_filter.mp (List.mem_reverse.mp member)).1
  · intro id either
    have waiting := either.resolve_left (blank id)
    obtain ⟨isRoot, height⟩ := List.mem_filter.mp (List.mem_reverse.mp waiting)
    exact ⟨id, isRoot, of_decide_eq_true height, .refl⟩
  · intro root isRoot height
    exact .inr (List.mem_reverse.mpr (List.mem_filter.mpr ⟨isRoot, decide_eq_true height⟩))
  · exact fun id _ marked => absurd marked (blank id)

private theorem ext_getD {left right : Array Bool} (size : left.size = right.size)
    (same : ∀ id, left.getD id false = true ↔ right.getD id false = true) : left = right := by
  apply Array.ext size
  intro id inside inside'
  have here := same id
  simp only [Array.getD, inside, inside', dif_pos] at here
  exact Bool.eq_iff_iff.mpr here

/-- The search from the deepest outputs finds the flags of a new view. -/
theorem searchCritical_eq {view : DepthView Store} (seen : ofNetwork network = .ok view) :
    searchCritical network view.levels = .ok view.critical := by
  have bounded := bounded_of_ofNetwork seen
  have searching := searching_start view.levels bounded.roots
  obtain ⟨ended, result, last⟩ := searching.exists_ended bounded.closed
  have deep : view.depth = depthOf network view.levels := by
    obtain ⟨nodes, _, _, rfl⟩ := exists_order_of_ofNetwork seen
    rfl
  have equal : ended = view.critical := by
    apply ext_getD
    · rw [last.known, size_critical seen]
    · intro id
      rw [last.marked_iff, ← deep]
      exact (isCritical_iff seen).symm
  rw [← equal]
  exact result

theorem upToDate_of_ofNetwork {view : DepthView Store} (seen : ofNetwork network = .ok view) :
    view.UpToDate := by
  have same := Rewriting.network_of_ofNetwork seen
  have truthful := truthful_of_ofNetwork seen
  refine { levels := truthful.levels, depth := truthful.depth, critical := fun id => ?_ }
  have onWalk : OnDeepest view.network view.level view.depth id ↔
      OnWalk view.network view.depth id :=
    truthful.levels.onDeepest_iff_onWalk truthful.depth.bound
  rw [same] at onWalk ⊢
  exact (isCritical_iff seen).trans onWalk

/-- The critical flags of a refreshed view are exact, and a search with a
stack finds them too. -/
theorem criticalPaths_exact (stale : DepthView Store) (bounded : Bounded stale.network)
    (acyclic : Network.Acyclic stale.network) :
    ∃ fresh, stale.refresh = .ok fresh ∧ fresh.network = stale.network ∧
      (∀ id, fresh.isCritical id = true ↔ OnWalk stale.network fresh.depth id) ∧
      (∀ id, fresh.isCritical id = true ↔
        ∃ above, LongestAbove stale.network id above ∧ fresh.level id + above = fresh.depth) ∧
      (∀ id, fresh.isCritical id = true → children stale.network id ≠ [] →
        ∃ child, Reads stale.network id child ∧ fresh.isCritical child = true ∧
          fresh.level child + 1 = fresh.level id) ∧
      searchCritical stale.network fresh.levels = .ok fresh.critical := by
  obtain ⟨fresh, seen⟩ := exists_ofNetwork_of_bounded bounded acyclic
  have same := Rewriting.network_of_ofNetwork seen
  obtain ⟨agree, depth, critical⟩ := upToDate_of_ofNetwork seen
  have bound := depth.bound
  rw [same] at agree bound critical
  refine ⟨fresh, seen, same, critical, fun id => ?_, ?_, ?_⟩
  · exact (isCritical_iff seen).trans (agree.onDeepest_iff_longestAbove bound)
  · intro id critical present
    obtain ⟨child, reads, highest⟩ := agree.attained id present
    have deepest := (isCritical_iff seen).mp critical
    have next := deepest.tail ⟨reads, highest.symm⟩
    exact ⟨child, reads, (isCritical_iff seen).mpr next, highest.symm⟩
  · exact searchCritical_eq seen

/-- Node 5 reads node 4 twice and node 3, which node 4 reads too.  Outputs read
nodes at each level, one of them twice. -/
def branchingTable : FaninTable :=
  { rows := #[[], [], [], [.plain 1, (Edge.plain 2).not], [.plain 3, .plain 1],
      [.plain 4, .plain 3, (Edge.plain 4).not], [.plain 3, .plain 0]]
    outputs := [.plain 6, .plain 5, .plain 0, (Edge.plain 5).not, .plain 3] }

/-- The short branch through node 6 is not critical, and neither is the
constant below it. -/
theorem criticalPaths_exact_branching : ∃ stale fresh : DepthView FaninTable,
    stale.network = branchingTable ∧ Bounded stale.network ∧ Network.Acyclic stale.network ∧
      stale.refresh = .ok fresh ∧ fresh.depth = 3 ∧ fresh.criticalNodes = [1, 2, 3, 4, 5] ∧
      OnWalk branchingTable 3 2 ∧ ¬ OnWalk branchingTable 3 6 ∧
      (∃ above, LongestAbove branchingTable 1 above ∧ fresh.level 1 + above = 3) ∧
      searchCritical branchingTable fresh.levels = .ok fresh.critical := by
  have checked : (do
      let view ← ofNetwork branchingTable
      return decide (view.depth = 3 ∧ view.criticalNodes = [1, 2, 3, 4, 5]) &&
        view.isCritical 2 && !view.isCritical 6 && view.isCritical 1) = .ok true := by
    decide +kernel
  obtain ⟨view, seen, results⟩ := bind_eq_ok.mp checked
  simp only [pure_eq_ok, Bool.and_eq_true, decide_eq_true_eq, Bool.not_eq_true'] at results
  obtain ⟨⟨⟨⟨deep, nodes⟩, marked⟩, unmarked⟩, low⟩ := results
  have bounded := bounded_of_ofNetwork seen
  have acyclic := acyclic_of_ofNetwork seen
  let stale : DepthView FaninTable :=
    { network := branchingTable, levels := #[], critical := #[], depth := 0 }
  obtain ⟨fresh, refreshed, _, walks, longest, _, search⟩ :=
    criticalPaths_exact stale bounded acyclic
  cases seen.symm.trans refreshed
  rw [deep] at walks longest
  refine ⟨stale, view, rfl, bounded, acyclic, refreshed, deep, nodes, (walks 2).mp marked, ?_,
    (longest 1).mp low, search⟩
  intro onWalk
  rw [(walks 6).mpr onWalk] at unmarked
  cases unmarked

end DepthView

end AndInverter
