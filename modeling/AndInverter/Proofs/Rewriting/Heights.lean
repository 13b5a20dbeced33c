import AndInverter.Proofs.DepthView.Building

/-!
# Rules and levels

On a view that tells the truth, a fanin of a critical node that is not
critical itself is two levels below it.  So what a rule finds is no higher
than the node.  Associativity and distributivity find something lower; the
three-layer rule may come back to the same level.
-/

namespace AndInverter

namespace Rule

variable {view : DepthView Aig} {critical : Edge → Bool} {node : Nat}

theorem reads_of_mem_layer {edge : Edge} (member : edge ∈ (layerBelow view critical node).edges) :
    Network.Reads view.network node edge.node :=
  List.mem_map.mpr ⟨edge, mem_edges_layerBelow.mp member, rfl⟩

theorem level_lt_of_mem_layer (truthful : view.Truthful) {edge : Edge}
    (member : edge ∈ (layerBelow view critical node).edges) :
    edgeLevel view edge < view.level node :=
  truthful.levels.above _ _ (reads_of_mem_layer member)

theorem level_lt_of_mem_others (truthful : view.Truthful) (marked : view.isCritical node = true)
    {edge : Edge} (rest : (layerBelow view (onPath view) node).others = [edge]) :
    edgeLevel view edge + 1 < view.level node := by
  have reads := reads_of_mem_layer (Layer.mem_edges_of_others rest)
  have below : edgeLevel view edge + 1 ≤ view.level node := truthful.levels.above _ _ reads
  apply Nat.lt_of_le_of_ne below
  intro next
  have member : edge ∈ (layerBelow view (onPath view) node).others := by
    rw [rest]
    exact List.mem_cons_self
  have unmarked : (!onPath view edge) = true := (List.mem_filter.mp member).2
  rw [onPath, truthful.descends _ _ marked reads next] at unmarked
  cases unmarked

private theorem isCritical_of_onPathPlain {edge : Edge} (onTop : onPathPlain view edge = true) :
    view.isCritical edge.node = true := by
  simp only [onPathPlain, Bool.and_eq_true] at onTop
  exact onTop.1

private theorem isCritical_of_onPathComplemented {edge : Edge}
    (onTop : onPathComplemented view edge = true) : view.isCritical edge.node = true := by
  simp only [onPathComplemented, Bool.and_eq_true] at onTop
  exact onTop.1

theorem Regroups.height_lt (truthful : view.Truthful) {plain kept path inner : Edge}
    (regroups : Regroups view node plain kept path inner) :
    max (edgeLevel view path) (max (edgeLevel view inner) (edgeLevel view kept) + 1) + 1 <
      view.level node := by
  have top : edgeLevel view plain < view.level node := by
    apply truthful.levels.above
    rcases regroups.fanins with stored | stored
    · exact Aig.reads_iff.mpr ⟨_, stored, .inl rfl⟩
    · exact Aig.reads_iff.mpr ⟨_, stored, .inr rfl⟩
  have pathLevel := level_lt_of_mem_layer truthful (Layer.mem_edges_of_critical regroups.onPlain)
  have innerLevel := level_lt_of_mem_others truthful (isCritical_of_onPathPlain regroups.onTop)
    regroups.besidePlain
  have keptLevel := regroups.slack
  unfold edgeLevel at *
  omega

theorem Factors.height_lt (truthful : view.Truthful) {first second shared left right : Edge}
    (factors : Factors view node first second shared left right) :
    max (edgeLevel view shared) (max (edgeLevel view left) (edgeLevel view right) + 1) + 1 <
      view.level node := by
  have firstLevel : edgeLevel view first < view.level node :=
    truthful.levels.above _ _ (Aig.reads_iff.mpr ⟨_, factors.fanins, .inl rfl⟩)
  have secondLevel : edgeLevel view second < view.level node :=
    truthful.levels.above _ _ (Aig.reads_iff.mpr ⟨_, factors.fanins, .inr rfl⟩)
  have sharedLevel := level_lt_of_mem_layer truthful (Layer.mem_edges_of_critical factors.onFirst)
  have leftLevel := level_lt_of_mem_others truthful
    (isCritical_of_onPathComplemented factors.firstOnTop) factors.besideFirst
  have rightLevel := level_lt_of_mem_others truthful
    (isCritical_of_onPathComplemented factors.secondOnTop) factors.besideSecond
  unfold edgeLevel at *
  omega

/-- The replacement is one level above what becomes of the branch: `x` and `d`
move up, `a` and `b` get as many gates above them as before or more. -/
theorem Distributes.height_le_branch (truthful : view.Truthful) {branch a inner b x d : Edge}
    (distributes : Distributes view node branch a inner b x d) :
    max (max (edgeLevel view x) (max (edgeLevel view a) (edgeLevel view d) + 1) + 1)
        (max (edgeLevel view a) (edgeLevel view b) + 1) + 1 ≤
      max (edgeLevel view branch) (max (edgeLevel view a + 3) (edgeLevel view b + 2)) := by
  have innerLevel :=
    level_lt_of_mem_layer truthful (Layer.mem_edges_of_critical distributes.onMiddle)
  have xLevel := level_lt_of_mem_layer truthful (Layer.mem_edges_of_critical distributes.onBottom)
  have dLevel := level_lt_of_mem_others truthful
    (isCritical_of_onPathComplemented distributes.innerOnTop) distributes.besideBottom
  unfold edgeLevel at *
  omega

/-- The gain is lost if `a` is three levels below the node: it then lies as
deep in the replacement as the old path did. -/
theorem Distributes.height_le (truthful : view.Truthful) {branch a inner b x d : Edge}
    (distributes : Distributes view node branch a inner b x d) :
    max (max (edgeLevel view x) (max (edgeLevel view a) (edgeLevel view d) + 1) + 1)
        (max (edgeLevel view a) (edgeLevel view b) + 1) + 1 ≤ view.level node := by
  apply Nat.le_trans (distributes.height_le_branch truthful)
  have branchLevel :=
    level_lt_of_mem_layer truthful (Layer.mem_edges_of_critical distributes.onTop)
  have bLevel := level_lt_of_mem_layer truthful (Layer.mem_edges_of_others distributes.besideMiddle)
  have aLevel := distributes.slack
  unfold edgeLevel at *
  omega

theorem isCritical_of_examine (references : view.network.References) {rule : Rule}
    {recipe : Recipe} (found : rule.examine view node = .found recipe) :
    view.isCritical node = true := by
  cases rule with
  | associativity =>
      obtain ⟨_, _, _, _, regroups, _⟩ := regroups_of_matchAssociativity found
      exact regroups.critical
  | distributivity =>
      obtain ⟨_, _, _, _, _, factors, _⟩ := factors_of_matchDistributivity references found
      exact factors.critical
  | threeLayerDistributivity =>
      obtain ⟨_, _, _, _, _, _, distributes, _⟩ := distributes_of_matchThreeLayer found
      exact distributes.critical

/-- What a rule finds for a node takes at most four gates and is no higher
than the node.  If it is as high, it complements its last gate. -/
structure Suits (view : DepthView Aig) (rule : Rule) (node : Nat) (recipe : Recipe) : Prop where
  height : recipe.height view.level ≤ view.level node
  gains : rule ≠ .threeLayerDistributivity → recipe.height view.level < view.level node
  negated : recipe.height view.level = view.level node → recipe.negated = true
  joins : recipe.joins ≤ 4

private theorem suits_of_lt {rule : Rule} {recipe : Recipe}
    (lower : recipe.height view.level < view.level node) (joins : recipe.joins ≤ 4) :
    Suits view rule node recipe :=
  { height := Nat.le_of_lt lower
    gains := fun _ => lower
    negated := fun equal => absurd equal (Nat.ne_of_lt lower)
    joins := joins }

theorem suits_of_examine (truthful : view.Truthful) (references : view.network.References)
    {rule : Rule} {recipe : Recipe} (found : rule.examine view node = .found recipe) :
    Suits view rule node recipe := by
  cases rule with
  | associativity =>
      obtain ⟨plain, kept, path, inner, regroups, order⟩ := regroups_of_matchAssociativity found
      have lower := regroups.height_lt truthful
      rcases order with rfl | rfl
      · exact suits_of_lt lower (by simp [Recipe.joins])
      · rw [Nat.max_comm (edgeLevel view inner)] at lower
        exact suits_of_lt lower (by simp [Recipe.joins])
  | distributivity =>
      obtain ⟨_, _, _, _, _, factors, rfl⟩ := factors_of_matchDistributivity references found
      exact suits_of_lt (factors.height_lt truthful) (by simp [Recipe.joins, Recipe.nand, Recipe.or])
  | threeLayerDistributivity =>
      obtain ⟨_, _, _, _, _, _, distributes, rfl⟩ := distributes_of_matchThreeLayer found
      exact { height := distributes.height_le truthful
              gains := fun other => absurd rfl other
              negated := fun _ => rfl
              joins := by simp [Recipe.joins, Recipe.nand] }

end Rule

end AndInverter
