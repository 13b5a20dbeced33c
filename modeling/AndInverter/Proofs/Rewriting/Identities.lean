import AndInverter.Proofs.Aig.Evaluation
import AndInverter.Rewriting.Rule

/-!
# Rules as Boolean identities

Whatever levels and flags a view holds, a rule that finds its shape gives a
recipe for the gate: it reads live nodes and has the gate's value under every
valuation that satisfies the store.  Normal fanins are needed by one rule
only, to tell that the shared signal comes from two products.
-/

namespace AndInverter

/-- The recipe reads live nodes and computes the gate. -/
structure Computes (aig : Aig) (node : Nat) (recipe : Recipe) : Prop where
  isGate : aig.isGate node = true
  live : ∀ signal ∈ recipe.signals, aig.isDead signal.node = false
  value : ∀ valuation, aig.Satisfies valuation → recipe.value valuation = valuation node

namespace Layer

def edges (layer : Layer) : List Edge :=
  layer.critical ++ layer.others

theorem mem_edges_of_critical {layer : Layer} {edge : Edge} {more : List Edge}
    (path : layer.critical = edge :: more) : edge ∈ layer.edges := by
  rw [edges, path]
  exact List.mem_cons_self

theorem mem_edges_of_others {layer : Layer} {edge : Edge} (rest : layer.others = [edge]) :
    edge ∈ layer.edges := by
  rw [edges, rest]
  exact List.mem_append_right _ List.mem_cons_self

section Pair

variable {critical : Edge → Bool} {first second : Edge}

private theorem split_neither (left : critical first = false) (right : critical second = false) :
    split critical [first, second] = { critical := [], others := [first, second] } := by
  simp [split, left, right]

private theorem split_first (left : critical first = true) (right : critical second = false) :
    split critical [first, second] = { critical := [first], others := [second] } := by
  simp [split, left, right]

private theorem split_second (left : critical first = false) (right : critical second = true) :
    split critical [first, second] = { critical := [second], others := [first] } := by
  simp [split, left, right]

private theorem split_both (left : critical first = true) (right : critical second = true) :
    split critical [first, second] = { critical := [first, second], others := [] } := by
  simp [split, left, right]

end Pair

theorem single?_eq_some {layer : Layer} {critical other : Edge}
    (single : layer.single? = some (critical, other)) :
    layer.critical = [critical] ∧ layer.others = [other] := by
  unfold single? at single
  split at single
  · cases single
    exact ⟨rfl, rfl⟩
  · cases single

end Layer

namespace Rule

variable {view : DepthView Aig} {critical : Edge → Bool} {node : Nat}

theorem mem_edges_layerBelow {edge : Edge} :
    edge ∈ (layerBelow view critical node).edges ↔ edge ∈ view.network.fanins node := by
  show edge ∈ (view.network.fanins node).filter critical ++
    (view.network.fanins node).filter (fun edge => !critical edge) ↔ _
  rw [List.mem_append, List.mem_filter, List.mem_filter]
  cases critical edge <;> simp

theorem critical_of_mem {edge : Edge} (member : edge ∈ (layerBelow view critical node).critical) :
    critical edge = true :=
  (List.mem_filter.mp member).2

theorem exists_fanins {edge : Edge} (member : edge ∈ (layerBelow view critical node).edges) :
    ∃ fanins, view.network.gateFanins? node = some fanins := by
  have present := mem_edges_layerBelow.mp member
  cases stored : view.network.gateFanins? node with
  | none => simp [Aig.fanins, stored] at present
  | some fanins => exact ⟨fanins, rfl⟩

theorem fanins_eq {fanins : Fanins} (stored : view.network.gateFanins? node = some fanins) :
    Network.fanins view.network node = [fanins.first, fanins.second] := by
  show view.network.fanins node = _
  simp [Aig.fanins, stored, Fanins.toList]

theorem live_of_mem_layer (references : view.network.References) {edge : Edge}
    (member : edge ∈ (layerBelow view critical node).edges) :
    view.network.isDead edge.node = false := by
  obtain ⟨fanins, stored⟩ := exists_fanins member
  obtain ⟨firstLive, secondLive⟩ := Aig.fanins_live_of_stored references stored
  have present := mem_edges_layerBelow.mp member
  rw [show view.network.fanins node = _ from fanins_eq stored] at present
  rcases List.mem_cons.mp present with rfl | last
  · exact firstLive
  · rw [List.mem_singleton.mp last]
    exact secondLive

theorem value_of_layer {valuation : Nat → Bool} (satisfies : view.network.Satisfies valuation)
    {edge : Edge} (member : edge ∈ (layerBelow view critical node).edges) :
    valuation node = (layerBelow view critical node).edges.all (·.value valuation) := by
  obtain ⟨fanins, stored⟩ := exists_fanins member
  rw [satisfies.gate node fanins stored, Fanins.value, layerBelow, fanins_eq stored]
  cases first : critical fanins.first <;> cases second : critical fanins.second <;>
    simp [Layer.edges, Layer.split, first, second, Bool.and_comm]

private theorem length_layer {edge : Edge} (member : edge ∈ (layerBelow view critical node).edges) :
    (layerBelow view critical node).edges.length = 2 := by
  obtain ⟨fanins, stored⟩ := exists_fanins member
  rw [layerBelow, fanins_eq stored]
  cases first : critical fanins.first <;> cases second : critical fanins.second <;>
    simp [Layer.edges, Layer.split, first, second]

theorem not_twice_critical (references : view.network.References) (edge : Edge) :
    (layerBelow view critical node).critical ≠ [edge, edge] := by
  intro twice
  obtain ⟨fanins, stored⟩ := exists_fanins (Layer.mem_edges_of_critical twice)
  obtain ⟨_, different, _⟩ := references.normal node fanins stored
  rw [layerBelow, fanins_eq stored] at twice
  cases first : critical fanins.first <;> cases second : critical fanins.second <;>
    simp [Layer.split, first, second] at twice
  obtain ⟨left, right⟩ := twice
  exact different (congrArg Edge.node (left.trans right.symm))

theorem value_of_split {valuation : Nat → Bool} (satisfies : view.network.Satisfies valuation)
    {left right : Edge} (path : (layerBelow view critical node).critical = [left])
    (rest : (layerBelow view critical node).others = [right]) :
    valuation node = (left.value valuation && right.value valuation) := by
  have edges : (layerBelow view critical node).edges = [left, right] := by
    rw [Layer.edges, path, rest]
    rfl
  rw [value_of_layer satisfies (Layer.mem_edges_of_critical path), edges]
  simp

/-! ### Associativity -/

/-- The shape `(path & inner) & kept`: the node reads the product through
`plain`. -/
structure Regroups (view : DepthView Aig) (node : Nat) (plain kept path inner : Edge) : Prop where
  critical : view.isCritical node = true
  fanins : view.network.gateFanins? node = some { first := plain, second := kept } ∨
    view.network.gateFanins? node = some { first := kept, second := plain }
  onTop : onPathPlain view plain = true
  onPlain : (layerBelow view (onPath view) plain.node).critical = [path]
  besidePlain : (layerBelow view (onPath view) plain.node).others = [inner]
  slack : edgeLevel view kept < edgeLevel view path

theorem complement_of_onPathPlain {edge : Edge} (onTop : onPathPlain view edge = true) :
    edge.complement = false := by
  simp only [onPathPlain, Bool.and_eq_true, Bool.not_eq_true'] at onTop
  exact onTop.2

theorem regroups_of_matchAssociativity {recipe : Recipe}
    (found : matchAssociativity view node = .found recipe) :
    ∃ plain kept path inner, Regroups view node plain kept path inner ∧
      (recipe = .and (.signal path) (.and (.signal inner) (.signal kept)) ∨
        recipe = .and (.signal path) (.and (.signal kept) (.signal inner))) := by
  unfold matchAssociativity at found
  split at found
  · rename_i guard
    simp only [Bool.and_eq_true] at guard
    obtain ⟨⟨first, second⟩, stored⟩ := Aig.isGate_iff.mp guard.1.1
    have top : layerBelow view (onPathPlain view) node =
        .split (onPathPlain view) [first, second] := by
      rw [layerBelow, fanins_eq stored]
    rw [top, fanins_eq stored] at found
    cases left : onPathPlain view first <;> cases right : onPathPlain view second
    · rw [Layer.split_neither left right] at found
      cases found
    · rw [Layer.split_second left right] at found
      simp only [List.map_cons, List.map_nil, List.flatMap_cons, List.flatMap_nil,
        List.append_nil, left, right, Bool.false_eq_true, if_false, if_true, List.cons_append,
        List.nil_append, List.getLast?_singleton] at found
      split at found
      · rename_i path outer inner kept onTop sides last
        obtain ⟨rfl, beside⟩ := List.cons.inj sides
        cases last
        split at found
        · cases found
        · rename_i slack
          cases found
          exact ⟨second, first, path, inner, ⟨guard.1.2, .inr stored, right, onTop, beside,
            Nat.lt_of_not_le slack⟩, .inr rfl⟩
      · cases found
    · rw [Layer.split_first left right] at found
      simp only [List.map_cons, List.map_nil, List.flatMap_cons, List.flatMap_nil,
        List.append_nil, left, right, Bool.false_eq_true, if_false, if_true,
        List.getLast?_singleton] at found
      split at found
      · rename_i path inner outer kept onTop sides last
        have sides : _ ++ [second] = [inner] ++ [outer] := sides
        obtain ⟨beside, same⟩ := List.append_inj' sides rfl
        cases same
        cases last
        split at found
        · cases found
        · rename_i slack
          cases found
          exact ⟨first, second, path, inner, ⟨guard.1.2, .inl stored, left, onTop, beside,
            Nat.lt_of_not_le slack⟩, .inl rfl⟩
      · cases found
    · rw [Layer.split_both left right] at found
      dsimp only at found
      split at found
      · rename_i nothing
        cases nothing
      · cases found
  · cases found

theorem Regroups.computes (references : view.network.References) {plain kept path inner : Edge}
    (regroups : Regroups view node plain kept path inner) :
    Computes view.network node
        (.and (.signal path) (.and (.signal inner) (.signal kept))) ∧
      Computes view.network node
        (.and (.signal path) (.and (.signal kept) (.signal inner))) := by
  have pathLive := live_of_mem_layer references (Layer.mem_edges_of_critical regroups.onPlain)
  have innerLive := live_of_mem_layer references (Layer.mem_edges_of_others regroups.besidePlain)
  have keptLive : view.network.isDead kept.node = false := by
    rcases regroups.fanins with stored | stored
    · exact (Aig.fanins_live_of_stored references stored).2
    · exact (Aig.fanins_live_of_stored references stored).1
  have value : ∀ valuation, view.network.Satisfies valuation → valuation node =
      ((path.value valuation && inner.value valuation) && kept.value valuation) := by
    intro valuation satisfies
    have read : plain.value valuation = (path.value valuation && inner.value valuation) := by
      rw [Edge.value, complement_of_onPathPlain regroups.onTop, Bool.xor_false,
        value_of_split satisfies regroups.onPlain regroups.besidePlain]
    rw [← read]
    rcases regroups.fanins with stored | stored
    · exact satisfies.gate node _ stored
    · rw [satisfies.gate node _ stored]
      exact Bool.and_comm ..
  have isGate : view.network.isGate node = true := by
    rcases regroups.fanins with stored | stored
    · exact Aig.isGate_iff.mpr ⟨_, stored⟩
    · exact Aig.isGate_iff.mpr ⟨_, stored⟩
  constructor
  · refine ⟨isGate, by simp [Recipe.signals, pathLive, innerLive, keptLive], ?_⟩
    intro valuation satisfies
    simp [Recipe.value, value valuation satisfies, Bool.and_assoc]
  · refine ⟨isGate, by simp [Recipe.signals, pathLive, innerLive, keptLive], ?_⟩
    intro valuation satisfies
    simp [Recipe.value, value valuation satisfies, Bool.and_comm, Bool.and_left_comm]

theorem computes_of_matchAssociativity (references : view.network.References)
    {recipe : Recipe} (found : matchAssociativity view node = .found recipe) :
    Computes view.network node recipe := by
  obtain ⟨plain, kept, path, inner, regroups, order⟩ := regroups_of_matchAssociativity found
  rcases order with rfl | rfl
  · exact (regroups.computes references).1
  · exact (regroups.computes references).2

/-! ### Distributivity -/

private theorem length_others {edge : Edge}
    (path : (layerBelow view critical node).critical = [edge]) :
    (layerBelow view critical node).others.length = 1 := by
  have length := length_layer (Layer.mem_edges_of_critical path)
  rw [Layer.edges, path, List.length_append, List.length_singleton] at length
  omega

theorem products_of_shared (references : view.network.References) {first second : Nat}
    {shared left right : Edge}
    (paths : (layerBelow view critical first).critical ++
      (layerBelow view critical second).critical = [shared, shared])
    (rests : (layerBelow view critical first).others ++
      (layerBelow view critical second).others = [left, right]) :
    ((layerBelow view critical first).critical = [shared] ∧
        (layerBelow view critical first).others = [left]) ∧
      (layerBelow view critical second).critical = [shared] ∧
        (layerBelow view critical second).others = [right] := by
  have onFirst : (layerBelow view critical first).critical = [shared] := by
    cases path : (layerBelow view critical first).critical with
    | nil =>
        rw [path] at paths
        exact absurd paths (not_twice_critical references shared)
    | cons edge more =>
        rw [path, List.cons_append] at paths
        obtain ⟨rfl, tail⟩ := List.cons.inj paths
        cases more with
        | nil => rfl
        | cons another more =>
            rw [List.cons_append] at tail
            obtain ⟨rfl, nothing⟩ := List.cons.inj tail
            obtain ⟨rfl, _⟩ := List.append_eq_nil_iff.mp nothing
            exact absurd path (not_twice_critical references another)
  have onSecond : (layerBelow view critical second).critical = [shared] := by
    rw [onFirst] at paths
    exact (List.cons.inj paths).2
  obtain ⟨edge, besideFirst⟩ := List.length_eq_one_iff.mp (length_others onFirst)
  rw [besideFirst, List.singleton_append] at rests
  obtain ⟨rfl, besideSecond⟩ := List.cons.inj rests
  exact ⟨⟨onFirst, besideFirst⟩, onSecond, besideSecond⟩

private theorem not_four_edges (left right other another : Edge)
    (paths : (layerBelow view critical node).critical = [left, right]) :
    (layerBelow view critical node).others ≠ [other, another] := by
  intro rests
  have length := length_layer (Layer.mem_edges_of_critical paths)
  rw [Layer.edges, paths, rests] at length
  cases length

/-- The shape `!(shared & left) & !(shared & right)`. -/
structure Factors (view : DepthView Aig) (node : Nat)
    (first second shared left right : Edge) : Prop where
  critical : view.isCritical node = true
  fanins : view.network.gateFanins? node = some { first := first, second := second }
  firstOnTop : onPathComplemented view first = true
  secondOnTop : onPathComplemented view second = true
  onFirst : (layerBelow view (onPath view) first.node).critical = [shared]
  besideFirst : (layerBelow view (onPath view) first.node).others = [left]
  onSecond : (layerBelow view (onPath view) second.node).critical = [shared]
  besideSecond : (layerBelow view (onPath view) second.node).others = [right]

theorem complement_of_onPathComplemented {edge : Edge}
    (onTop : onPathComplemented view edge = true) : edge.complement = true := by
  simp only [onPathComplemented, Bool.and_eq_true] at onTop
  exact onTop.2

theorem factors_of_matchDistributivity (references : view.network.References)
    {recipe : Recipe} (found : matchDistributivity view node = .found recipe) :
    ∃ first second shared left right, Factors view node first second shared left right ∧
      recipe = .nand (.signal shared) (.or (.signal left) (.signal right)) := by
  unfold matchDistributivity at found
  split at found
  · rename_i guard
    simp only [Bool.and_eq_true] at guard
    have noOr : Network.isOr view.network node = false := rfl
    cases stored : view.network.gateFanins? node with
    | none =>
        have top : layerBelow view (onPathComplemented view) node =
            .split (onPathComplemented view) [] := by
          rw [layerBelow]
          show Layer.split _ (view.network.fanins node) = _
          simp [Aig.fanins, stored]
        simp [top, Layer.split] at found
    | some fanins =>
        obtain ⟨first, second⟩ := fanins
        have top : layerBelow view (onPathComplemented view) node =
            .split (onPathComplemented view) [first, second] := by
          rw [layerBelow, fanins_eq stored]
        rw [top] at found
        cases left : onPathComplemented view first <;>
          cases right : onPathComplemented view second
        · rw [Layer.split_neither left right] at found
          cases found
        · rw [Layer.split_second left right] at found
          simp only [List.map_cons, List.map_nil, List.flatMap_cons, List.flatMap_nil,
            List.append_nil] at found
          split at found
          · rename_i _ _ _ _ paths rests
            exact absurd rests (not_four_edges _ _ _ _ paths)
          · cases found
        · rw [Layer.split_first left right] at found
          simp only [List.map_cons, List.map_nil, List.flatMap_cons, List.flatMap_nil,
            List.append_nil] at found
          split at found
          · rename_i _ _ _ _ paths rests
            exact absurd rests (not_four_edges _ _ _ _ paths)
          · cases found
        · rw [Layer.split_both left right] at found
          simp only [List.map_cons, List.map_nil, List.flatMap_cons, List.flatMap_nil,
            List.append_nil, noOr, Bool.false_eq_true, if_false] at found
          split at found
          · rename_i shared other inner outer paths rests
            by_cases same : shared = other
            · subst same
              obtain ⟨⟨onFirst, besideFirst⟩, onSecond, besideSecond⟩ :=
                products_of_shared references paths rests
              rw [if_neg (not_not_intro rfl)] at found
              cases found
              exact ⟨first, second, shared, inner, outer, ⟨guard.1, stored, left, right,
                onFirst, besideFirst, onSecond, besideSecond⟩, rfl⟩
            · rw [if_pos same] at found
              cases found
          · cases found
  · cases found

/-- A gate on the complements of two products with a shared signal. -/
theorem Factors.computes (references : view.network.References)
    {first second shared left right : Edge}
    (factors : Factors view node first second shared left right) :
    Computes view.network node
      (.nand (.signal shared) (.or (.signal left) (.signal right))) := by
  have sharedLive := live_of_mem_layer references (Layer.mem_edges_of_critical factors.onFirst)
  have leftLive := live_of_mem_layer references (Layer.mem_edges_of_others factors.besideFirst)
  have rightLive := live_of_mem_layer references (Layer.mem_edges_of_others factors.besideSecond)
  constructor
  · exact Aig.isGate_iff.mpr ⟨_, factors.fanins⟩
  · simp [Recipe.nand, Recipe.or, Recipe.signals, sharedLive, leftLive, rightLive]
  · intro valuation satisfies
    rw [satisfies.gate node _ factors.fanins, Fanins.value, Edge.value, Edge.value,
      complement_of_onPathComplemented factors.firstOnTop,
      complement_of_onPathComplemented factors.secondOnTop,
      value_of_split satisfies factors.onFirst factors.besideFirst,
      value_of_split satisfies factors.onSecond factors.besideSecond]
    simp only [Recipe.nand, Recipe.or, Recipe.value]
    cases shared.value valuation <;> cases left.value valuation <;>
      cases right.value valuation <;> rfl

theorem computes_of_matchDistributivity (references : view.network.References)
    {recipe : Recipe} (found : matchDistributivity view node = .found recipe) :
    Computes view.network node recipe := by
  obtain ⟨_, _, _, _, _, factors, rfl⟩ := factors_of_matchDistributivity references found
  exact factors.computes references

/-! ### Three-layer distributivity -/

theorem exists_of_single? {left right : Edge}
    (single : (layerBelow view critical node).single? = some (left, right)) :
    ((layerBelow view critical node).critical = [left] ∧
      (layerBelow view critical node).others = [right]) ∧ critical left = true := by
  obtain ⟨path, rest⟩ := Layer.single?_eq_some single
  have member : left ∈ (layerBelow view critical node).critical := by
    rw [path]
    exact List.mem_cons_self
  exact ⟨⟨path, rest⟩, critical_of_mem member⟩

/-- The shape `a & !(b & !(x & d))`: the node reads the product with `b`
through `branch`, which reads the product of `x` and `d` through `inner`. -/
structure Distributes (view : DepthView Aig) (node : Nat) (branch a inner b x d : Edge) :
    Prop where
  critical : view.isCritical node = true
  onTop : (layerBelow view (onPathComplemented view) node).critical = [branch]
  besideTop : (layerBelow view (onPathComplemented view) node).others = [a]
  branchOnTop : onPathComplemented view branch = true
  onMiddle : (layerBelow view (onPathComplemented view) branch.node).critical = [inner]
  besideMiddle : (layerBelow view (onPathComplemented view) branch.node).others = [b]
  innerOnTop : onPathComplemented view inner = true
  onBottom : (layerBelow view (onPath view) inner.node).critical = [x]
  besideBottom : (layerBelow view (onPath view) inner.node).others = [d]
  slack : edgeLevel view a + 2 ≤ edgeLevel view branch

theorem distributes_of_matchThreeLayer {recipe : Recipe}
    (found : matchThreeLayer view node = .found recipe) :
    ∃ branch a inner b x d, Distributes view node branch a inner b x d ∧
      recipe = .nand (.not (.and (.signal x) (.and (.signal a) (.signal d))))
        (.not (.and (.signal a) (.not (.signal b)))) := by
  unfold matchThreeLayer at found
  split at found
  · rename_i critical
    dsimp only at found
    split at found
    · cases found
    · rename_i layers
      obtain ⟨⟨branch, a⟩, top, rest⟩ := Option.bind_eq_some_iff.mp layers
      obtain ⟨⟨inner, b⟩, middle, rest⟩ := Option.bind_eq_some_iff.mp rest
      obtain ⟨⟨x, d⟩, bottom, result⟩ := Option.bind_eq_some_iff.mp rest
      cases result
      obtain ⟨⟨onTop, besideTop⟩, branchOnTop⟩ := exists_of_single? top
      obtain ⟨⟨onMiddle, besideMiddle⟩, innerOnTop⟩ := exists_of_single? middle
      obtain ⟨⟨onBottom, besideBottom⟩, _⟩ := exists_of_single? bottom
      split at found
      · cases found
      · rename_i slack
        cases found
        exact ⟨branch, a, inner, b, x, d, ⟨critical, onTop, besideTop, branchOnTop, onMiddle,
          besideMiddle, innerOnTop, onBottom, besideBottom, Nat.le_of_not_lt slack⟩, rfl⟩
  · cases found

theorem Distributes.computes (references : view.network.References)
    {branch a inner b x d : Edge} (distributes : Distributes view node branch a inner b x d) :
    Computes view.network node
      (.nand (.not (.and (.signal x) (.and (.signal a) (.signal d))))
        (.not (.and (.signal a) (.not (.signal b))))) := by
  have aLive := live_of_mem_layer references (Layer.mem_edges_of_others distributes.besideTop)
  have bLive := live_of_mem_layer references (Layer.mem_edges_of_others distributes.besideMiddle)
  have xLive := live_of_mem_layer references (Layer.mem_edges_of_critical distributes.onBottom)
  have dLive := live_of_mem_layer references (Layer.mem_edges_of_others distributes.besideBottom)
  constructor
  · exact Aig.isGate_iff.mpr (exists_fanins (Layer.mem_edges_of_critical distributes.onTop))
  · simp [Recipe.nand, Recipe.signals, aLive, bLive, xLive, dLive]
  · intro valuation satisfies
    have branchValue : branch.value valuation =
        !((!(x.value valuation && d.value valuation)) && b.value valuation) := by
      rw [Edge.value, complement_of_onPathComplemented distributes.branchOnTop,
        value_of_split satisfies distributes.onMiddle distributes.besideMiddle, Edge.value,
        complement_of_onPathComplemented distributes.innerOnTop,
        value_of_split satisfies distributes.onBottom distributes.besideBottom]
      simp
    rw [value_of_split satisfies distributes.onTop distributes.besideTop, branchValue]
    simp only [Recipe.nand, Recipe.value]
    cases a.value valuation <;> cases b.value valuation <;> cases x.value valuation <;>
      cases d.value valuation <;> rfl

theorem computes_of_matchThreeLayer (references : view.network.References)
    {recipe : Recipe} (found : matchThreeLayer view node = .found recipe) :
    Computes view.network node recipe := by
  obtain ⟨_, _, _, _, _, _, distributes, rfl⟩ := distributes_of_matchThreeLayer found
  exact distributes.computes references

/-- Whatever a rule finds computes the gate. -/
theorem computes_of_examine (references : view.network.References) {rule : Rule}
    {recipe : Recipe} (found : rule.examine view node = .found recipe) :
    Computes view.network node recipe := by
  cases rule with
  | associativity => exact computes_of_matchAssociativity references found
  | distributivity => exact computes_of_matchDistributivity references found
  | threeLayerDistributivity => exact computes_of_matchThreeLayer references found

end Rule

end AndInverter
