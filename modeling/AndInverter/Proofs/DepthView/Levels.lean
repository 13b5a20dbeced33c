import AndInverter.DepthView.LongestPath
import AndInverter.Proofs.Traversal.Topological
import Mathlib.Order.Interval.Finset.Nat

/-!
# Levels and flags of a new view

A view computes levels fanins first and marks consumers first.  Its levels
agree with the fanins, which leaves no other choice for them, the depth is the
largest level of an output, and every critical node hands its mark down to the
fanins one level below it.
-/

namespace AndInverter

open Network

variable {Store : Type} [Network Store] {network : Store}

/-! ### Levels -/

/-- Fanins decide the levels. -/
theorem Network.LevelsAgree.unique {level other : Nat → Nat}
    (agree : LevelsAgree network level) (agree' : LevelsAgree network other) (id : Nat) :
    level id = other id := by
  induction bound : level id using Nat.strongRecOn generalizing id with
  | ind height induction =>
    subst bound
    by_cases leaf : children network id = []
    · rw [agree.leaf id leaf, agree'.leaf id leaf]
    · obtain ⟨deepest, reads, highest⟩ := agree.attained id leaf
      obtain ⟨deepest', reads', highest'⟩ := agree'.attained id leaf
      have here := induction (level deepest) (by omega) deepest rfl
      have there := induction (level deepest') (by have := agree.above id _ reads'; omega)
        deepest' rfl
      have below := agree.above id deepest' reads'
      have below' := agree'.above id deepest reads
      omega

theorem Network.LevelsAgree.lt_of_path {level : Nat → Nat} (agree : LevelsAgree network level)
    {id other : Nat} (path : Relation.TransGen (Reads network) id other) :
    level other < level id := by
  induction path with
  | single reads => exact agree.above _ _ reads
  | tail _ reads induction => exact Nat.lt_trans (agree.above _ _ reads) induction

theorem Network.LevelsAgree.not_reaches {level : Nat → Nat} (agree : LevelsAgree network level)
    {id other : Nat} (different : id ≠ other) (height : level id ≤ level other) :
    ¬ Reaches network id other := by
  intro reaches
  rcases Relation.reflTransGen_iff_eq_or_transGen.mp reaches with same | path
  · exact different same.symm
  · exact Nat.not_lt_of_le height (agree.lt_of_path path)

theorem Network.LevelsAgree.exists_level_eq {level : Nat → Nat}
    (agree : LevelsAgree network level) {id height : Nat} (positive : 0 < height)
    (below : height ≤ level id) : ∃ node < size network, level node = height := by
  induction top : level id generalizing id with
  | zero => omega
  | succ top' induction =>
      have inner : children network id ≠ [] := by
        intro leaf
        rw [agree.leaf id leaf] at top
        cases top
      rcases Nat.lt_or_eq_of_le below with lower | rfl
      · obtain ⟨child, _, highest⟩ := agree.attained id inner
        have small : height ≤ level child := by omega
        exact induction small (by omega)
      · refine ⟨id, Nat.lt_of_not_le fun beyond => inner ?_, rfl⟩
        rw [children, fanins_of_size_le network id beyond, List.map_nil]

theorem Network.LevelsAgree.level_le_size {level : Nat → Nat}
    (agree : LevelsAgree network level) (id : Nat) : level id ≤ size network := by
  have attained : Finset.Icc 1 (level id) ⊆ (Finset.range (size network)).image level := by
    intro height between
    obtain ⟨positive, below⟩ := Finset.mem_Icc.mp between
    obtain ⟨node, inside, same⟩ := agree.exists_level_eq positive below
    exact Finset.mem_image.mpr ⟨node, Finset.mem_range.mpr inside, same⟩
  calc level id = (Finset.Icc 1 (level id)).card := by rw [Nat.card_Icc, Nat.add_sub_cancel]
    _ ≤ ((Finset.range (size network)).image level).card := Finset.card_le_card attained
    _ ≤ (Finset.range (size network)).card := Finset.card_image_le
    _ = size network := Finset.card_range _

namespace DepthView

private theorem le_foldl_max {values : List Nat} {value : Nat} (member : value ∈ values) :
    value ≤ values.foldl max 0 := by
  rw [List.foldl_max]
  cases largest : values.max? with
  | none =>
      rw [List.max?_eq_none_iff.mp largest] at member
      cases member
  | some top =>
      apply Nat.le_trans _ (Nat.le_max_right 0 top)
      exact (List.max?_le_iff largest).mp (Nat.le_refl top) value member

private theorem foldl_max_mem {values : List Nat} (present : values ≠ []) :
    values.foldl max 0 ∈ values := by
  rw [List.foldl_max]
  cases largest : values.max? with
  | none => exact absurd (List.max?_eq_none_iff.mp largest) present
  | some top =>
      rw [Option.getD_some, Nat.zero_max]
      exact List.max?_mem largest

theorem getD_setIfInBounds {Entry : Type} (table : Array Entry) (id other : Nat)
    (entry default : Entry) : (table.setIfInBounds id entry).getD other default =
      if id = other ∧ other < table.size then entry else table.getD other default := by
  simp only [Array.getD_eq_getD_getElem?, Array.getElem?_setIfInBounds]
  by_cases same : id = other
  · subst same
    by_cases inside : id < table.size <;> simp [inside]
  · simp [same]

private theorem levelAbove_congr {levels more : Array Nat} {id : Nat}
    (same : ∀ child, Reads network id child → levels.getD child 0 = more.getD child 0) :
    levelAbove network levels id = levelAbove network more id := by
  unfold levelAbove
  congr 1
  apply List.map_congr_left
  intro child reads
  rw [same child reads]

private theorem levelsOf_cons (network : Store) (id : Nat) (rest : List Nat) :
    levelsOf network (id :: rest).reverse =
      (levelsOf network rest.reverse).setIfInBounds id
        (levelAbove network (levelsOf network rest.reverse) id) := by
  rw [levelsOf, List.reverse_cons, List.foldl_append]
  rfl

theorem size_levelsOf (network : Store) (nodes : List Nat) :
    (levelsOf network nodes.reverse).size = size network := by
  induction nodes with
  | nil => simp [levelsOf]
  | cons id rest induction => rw [levelsOf_cons, Array.size_setIfInBounds, induction]

/-- The level of a listed node is the one above its fanins, and stays so
while consumers get their levels. -/
theorem getD_levelsOf {nodes : List Nat} (ordered : Ordered network nodes) (id : Nat) :
    (levelsOf network nodes.reverse).getD id 0 =
      if id ∈ nodes then levelAbove network (levelsOf network nodes.reverse) id else 0 := by
  induction ordered generalizing id with
  | nil =>
      rw [if_neg List.not_mem_nil, levelsOf, List.reverse_nil, List.foldl_nil,
        Array.getD_eq_getD_getElem?, Array.getElem?_replicate]
      split <;> rfl
  | @cons latest rest inside fresh below ordered induction =>
      have before : ∀ child, child ∈ rest →
          (levelsOf network (latest :: rest).reverse).getD child 0 =
            (levelsOf network rest.reverse).getD child 0 := by
        intro child listed
        have different : latest ≠ child := fun same => fresh (same ▸ listed)
        rw [levelsOf_cons, getD_setIfInBounds, if_neg fun same => different same.1]
      by_cases isLatest : latest = id
      · subst isLatest
        rw [if_pos List.mem_cons_self,
          levelAbove_congr fun child reads => before child (below child reads),
          levelsOf_cons, getD_setIfInBounds, size_levelsOf, if_pos ⟨rfl, inside⟩]
      · rw [levelsOf_cons, getD_setIfInBounds, if_neg fun same => isLatest same.1, induction,
          ← levelsOf_cons]
        by_cases listed : id ∈ rest
        · rw [if_pos listed, if_pos (List.mem_cons_of_mem _ listed)]
          exact levelAbove_congr fun child reads =>
            (before child (ordered.reads_mem listed reads)).symm
        · have unlisted : id ∉ latest :: rest := by
            rintro (_ | ⟨_, later⟩)
            · exact isLatest rfl
            · exact listed later
          rw [if_neg listed, if_neg unlisted]

theorem levelsAgree_levelsOf {nodes : List Nat} (ordered : Ordered network nodes)
    (listed : ∀ id child, Reads network id child → id ∈ nodes) :
    LevelsAgree network fun id => (levelsOf network nodes.reverse).getD id 0 := by
  constructor
  · intro id leaf
    rw [getD_levelsOf ordered]
    split
    · rw [levelAbove, leaf]
      rfl
    · rfl
  · intro id child reads
    rw [getD_levelsOf ordered id, if_pos (listed id child reads)]
    apply le_foldl_max
    exact List.mem_map.mpr ⟨child, reads, rfl⟩
  · intro id present
    obtain ⟨some, reads⟩ := List.exists_mem_of_ne_nil _ present
    have attained : levelAbove network (levelsOf network nodes.reverse) id ∈
        (children network id).map fun child => (levelsOf network nodes.reverse).getD child 0 + 1 :=
      foldl_max_mem (by simpa using present)
    obtain ⟨child, isChild, highest⟩ := List.mem_map.mp attained
    refine ⟨child, isChild, ?_⟩
    rw [getD_levelsOf ordered id, if_pos (listed id some reads)]
    exact highest.symm

/-! ### Flags -/

private theorem getD_markEach {marks : Array Bool} {nodes : List Nat} {chosen : Nat → Prop}
    [DecidablePred chosen] (id : Nat) :
    (nodes.foldl (fun marks node => if chosen node then marks.setIfInBounds node true else marks)
        marks).getD id false = true ↔
      marks.getD id false = true ∨ (id ∈ nodes ∧ chosen id ∧ id < marks.size) := by
  induction nodes generalizing marks with
  | nil => simp
  | cons node nodes induction =>
      rw [List.foldl_cons, induction]
      by_cases marked : chosen node
      · rw [if_pos marked, getD_setIfInBounds, Array.size_setIfInBounds, List.mem_cons]
        by_cases same : node = id
        · subst same
          by_cases inside : node < marks.size <;> simp [inside, marked]
        · simp [same, Ne.symm same]
      · rw [if_neg marked, List.mem_cons]
        by_cases same : id = node
        · subst same
          simp [marked]
        · simp [same]

theorem getD_markBelow {levels : Array Nat} {marks : Array Bool} {id other : Nat} :
    (markBelow network levels marks id).getD other false = true ↔
      marks.getD other false = true ∨ marks.getD id false = true ∧ Reads network id other ∧
        levels.getD other 0 + 1 = levels.getD id 0 ∧ other < marks.size := by
  unfold markBelow
  split
  · rename_i marked
    rw [getD_markEach, marked, eq_self_iff_true, true_and]
    rfl
  · rename_i unmarked
    simp [unmarked]

theorem size_markEach {marks : Array Bool} {nodes : List Nat} {chosen : Nat → Prop}
    [DecidablePred chosen] :
    (nodes.foldl (fun marks node => if chosen node then marks.setIfInBounds node true else marks)
      marks).size = marks.size := by
  induction nodes generalizing marks with
  | nil => rfl
  | cons node nodes induction =>
      rw [List.foldl_cons, induction]
      split
      · exact Array.size_setIfInBounds
      · rfl

theorem size_markBelow (network : Store) (levels : Array Nat) (marks : Array Bool) (id : Nat) :
    (markBelow network levels marks id).size = marks.size := by
  unfold markBelow
  split
  · exact size_markEach
  · rfl

theorem getD_foldl_markBelow {levels : Array Nat} {marks : Array Bool} {nodes : List Nat}
    {id : Nat} (unread : ∀ node ∈ nodes, ¬ Reads network node id) :
    (nodes.foldl (markBelow network levels) marks).getD id false = true ↔
      marks.getD id false = true := by
  induction nodes generalizing marks with
  | nil => exact Iff.rfl
  | cons node nodes induction =>
      rw [List.foldl_cons, induction fun other member => unread other (List.mem_cons_of_mem _ member),
        getD_markBelow]
      apply or_iff_left
      intro marked
      exact unread node List.mem_cons_self marked.2.1

theorem getD_foldl_markBelow_of_marked {levels : Array Nat} {marks : Array Bool} {id : Nat}
    (nodes : List Nat) (marked : marks.getD id false = true) :
    (nodes.foldl (markBelow network levels) marks).getD id false = true := by
  induction nodes generalizing marks with
  | nil => exact marked
  | cons node nodes induction => exact induction (getD_markBelow.mpr (.inl marked))

/-- Once all consumers have had their turn, a marked node has marked the
fanins one level below it. -/
theorem foldl_markBelow_descends {levels : Array Nat} {marks : Array Bool} {nodes : List Nat}
    (ordered : Ordered network nodes) (known : marks.size = size network) {id child : Nat}
    (member : id ∈ nodes)
    (marked : (nodes.foldl (markBelow network levels) marks).getD id false = true)
    (reads : Reads network id child) (next : levels.getD child 0 + 1 = levels.getD id 0) :
    (nodes.foldl (markBelow network levels) marks).getD child false = true := by
  induction ordered generalizing marks with
  | nil => cases member
  | @cons latest rest inside fresh below ordered induction =>
      rw [List.foldl_cons] at marked ⊢
      rcases List.mem_cons.mp member with rfl | later
      · have unread : ∀ node ∈ rest, ¬ Reads network node id :=
          fun node listed reads => fresh (ordered.reads_mem listed reads)
        have itself : ¬ Reads network id id := fun reads => fresh (below id reads)
        have before : marks.getD id false = true := by
          rw [getD_foldl_markBelow unread, getD_markBelow] at marked
          exact marked.resolve_right fun self => itself self.2.1
        apply getD_foldl_markBelow_of_marked
        refine getD_markBelow.mpr (.inr ⟨before, reads, next, ?_⟩)
        rw [known]
        exact ordered.lt_size (below child reads)
      · exact induction ((size_markBelow ..).trans known) later marked

/-- What a marked node hands down to the fanins one level below it holds of all
marked nodes. -/
theorem foldl_markBelow_keep {levels : Array Nat} {marks : Array Bool} (law : Nat → Prop)
    (nodes : List Nat)
    (down : ∀ id child, law id → Reads network id child →
      levels.getD child 0 + 1 = levels.getD id 0 → law child)
    (holds : ∀ id, marks.getD id false = true → law id) {id : Nat}
    (marked : (nodes.foldl (markBelow network levels) marks).getD id false = true) : law id := by
  induction nodes generalizing marks with
  | nil => exact holds id marked
  | cons node nodes induction =>
      refine induction (fun other isMarked => ?_) marked
      rcases getD_markBelow.mp isMarked with already | ⟨above, reads, next, _⟩
      · exact holds other already
      · exact down node other (holds node above) reads next

theorem level_le_of_marked {levels : Array Nat} {marks : Array Bool} {bound : Nat}
    (nodes : List Nat) (low : ∀ id, marks.getD id false = true → levels.getD id 0 ≤ bound)
    {id : Nat} (marked : (nodes.foldl (markBelow network levels) marks).getD id false = true) :
    levels.getD id 0 ≤ bound := by
  refine foldl_markBelow_keep (levels.getD · 0 ≤ bound) nodes ?_ low marked
  intro id child height _ next
  omega

theorem getD_blank (size id : Nat) : (Array.replicate size false).getD id false = false := by
  rw [Array.getD_eq_getD_getElem?, Array.getElem?_replicate]
  split <;> rfl

theorem getD_deepest {levels : Array Nat} {id : Nat} :
    (((roots network).filter fun root => levels.getD root 0 = depthOf network levels).foldl
        (fun marks root => marks.setIfInBounds root true)
        (Array.replicate (size network) false)).getD id false = true ↔
      id ∈ roots network ∧ levels.getD id 0 = depthOf network levels ∧ id < size network := by
  have blank : ¬ (Array.replicate (size network) false).getD id false = true :=
    Bool.not_eq_true _ ▸ getD_blank _ id
  rw [List.foldl_filter, getD_markEach, or_iff_right blank, decide_eq_true_eq,
    Array.size_replicate]

/-! ### New views -/

/-- A new view has sorted the gates. -/
theorem exists_order_of_ofNetwork {view : DepthView Store} (seen : ofNetwork network = .ok view) :
    ∃ nodes, Ordered network nodes ∧ (∀ id, id ∈ nodes ↔ ReachedFrom network (gates network) id) ∧
      view = { network := network
               levels := levelsOf network nodes.reverse
               critical := criticalOf network nodes.reverse (levelsOf network nodes.reverse)
               depth := depthOf network (levelsOf network nodes.reverse) } := by
  unfold ofNetwork at seen
  split at seen
  · cases seen
  · rename_i order sorted
    split at seen
    · cases seen
    · cases seen
      obtain ⟨ordered, members⟩ := ordered_of_topologicalSort sorted
      refine ⟨order.reverse, ordered, ?_, ?_⟩
      · intro id
        rw [List.mem_reverse, members]
      · rw [List.reverse_reverse]

structure Truthful (view : DepthView Store) : Prop where
  levels : LevelsAgree view.network view.level
  known : view.levels.size = size view.network
  depth : view.DepthAgrees
  /-- A critical node hands its mark down. -/
  descends : ∀ id child, view.isCritical id = true → Reads view.network id child →
    view.level child + 1 = view.level id → view.isCritical child = true
  bounded : ∀ id, view.isCritical id = true → view.level id ≤ view.depth

theorem depthAgrees_depthOf {levels critical} :
    DepthAgrees { network := network, levels := levels, critical := critical,
                  depth := depthOf network levels } := by
  constructor
  · intro root isRoot
    exact le_foldl_max (List.mem_map.mpr ⟨root, isRoot, rfl⟩)
  · by_cases present : roots network = []
    · left
      simp [depthOf, present]
    · right
      have attained : depthOf network levels ∈
          (roots network).map fun id => levels.getD id 0 :=
        foldl_max_mem (by simpa using present)
      obtain ⟨root, isRoot, highest⟩ := List.mem_map.mp attained
      exact ⟨root, isRoot, highest⟩

theorem truthful_of_ofNetwork {view : DepthView Store} (seen : ofNetwork network = .ok view) :
    view.Truthful := by
  obtain ⟨nodes, ordered, members, rfl⟩ := exists_order_of_ofNetwork seen
  have listed : ∀ id child, Reads network id child → id ∈ nodes :=
    fun id child reads => (members id).mpr ⟨id, mem_gates_of_reads reads, .refl⟩
  constructor
  · exact levelsAgree_levelsOf ordered listed
  · exact size_levelsOf network nodes
  · exact depthAgrees_depthOf
  · intro id child marked reads next
    unfold isCritical criticalOf at marked ⊢
    rw [List.reverse_reverse] at marked ⊢
    refine foldl_markBelow_descends ordered ?_ (listed id child reads) marked reads next
    rw [List.foldl_filter, size_markEach, Array.size_replicate]
  · intro id marked
    unfold isCritical criticalOf at marked
    refine level_le_of_marked _ (fun root isMarked => ?_) marked
    exact Nat.le_of_eq (getD_deepest.mp isMarked).2.1

end DepthView

end AndInverter
