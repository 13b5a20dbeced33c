import AndInverter.Rewriting.Recipe

/-!
# Rewriting rules

A rule recognises a gate whose critical fanins can be moved up a level, and
gives the recipe of its replacement.  With `c` and `x` critical:

* associativity takes `(c & p) & q` to `c & (p & q)` if `q` is shallower than
  `c`;
* distributivity takes `!(x & y) & !(x & z)` to `!(x & (y | z))`;
* three-layer distributivity takes `a & !(b & !(x & d))` to
  `!(!(x & (a & d)) & !(a & !b))` if `a` is two levels shallower than the
  other fanin.
-/

namespace AndInverter

/-- The rewriting rules, in the order in which they are tried. -/
inductive Rule where
  | associativity
  | distributivity
  | threeLayerDistributivity
  deriving DecidableEq

def Rule.text : Rule → String
  | .associativity => "associativity"
  | .distributivity => "distributivity"
  | .threeLayerDistributivity => "three-layer distributivity"

/-- What a rule makes of a gate. -/
inductive Match where
  /-- The gate does not have the shape of the rule. -/
  | absent
  /-- The gate has the shape, but nothing would be gained. -/
  | blocked
  /-- The gate is to be replaced by what the recipe builds. -/
  | found (recipe : Recipe)
  deriving DecidableEq

/-- Edges split by whether they are critical in some sense. -/
structure Layer where
  critical : List Edge
  others : List Edge

namespace Layer

def split (critical : Edge → Bool) (edges : List Edge) : Layer :=
  { critical := edges.filter critical
    others := edges.filter fun edge => !critical edge }

/-- The critical and the other edge of a layer that has one of each. -/
def single? : Layer → Option (Edge × Edge)
  | { critical := [critical], others := [other] } => some (critical, other)
  | _ => none

end Layer

namespace Rule

variable {Store : Type} [Network Store]

def onPath (view : DepthView Store) (edge : Edge) : Bool :=
  view.isCritical edge.node

/-- Whether an edge reads a critical node as it is. -/
def onPathPlain (view : DepthView Store) (edge : Edge) : Bool :=
  onPath view edge && !edge.complement

def onPathComplemented (view : DepthView Store) (edge : Edge) : Bool :=
  onPath view edge && edge.complement

def edgeLevel (view : DepthView Store) (edge : Edge) : Nat :=
  view.level edge.node

def layerBelow (view : DepthView Store) (critical : Edge → Bool) (node : Nat) : Layer :=
  .split critical (Network.fanins view.network node)

/-- Looks for `(c & p) & q`. -/
def matchAssociativity (view : DepthView Store) (node : Nat) : Match :=
  if Network.isAnd view.network node && view.isCritical node && 1 < view.level node then
    let top := layerBelow view (onPathPlain view) node
    let below := top.critical.map fun edge => layerBelow view (onPath view) edge.node
    let critical := below.flatMap (·.critical)
    let others := (Network.fanins view.network node).flatMap fun edge =>
      if onPathPlain view edge then (layerBelow view (onPath view) edge.node).others
      else [edge]
    match critical, others, top.others.getLast? with
    | [path], [left, right], some kept =>
      if edgeLevel view path ≤ edgeLevel view kept then .blocked
      else .found (.and (.signal path) (.and (.signal left) (.signal right)))
    | _, _, _ => .absent
  else
    .absent

/-- Looks for `!(x & y) & !(x & z)`.  On a node that counts as a disjunction
the replacement is negated. -/
def matchDistributivity (view : DepthView Store) (node : Nat) : Match :=
  if view.isCritical node && 1 < view.level node then
    let products := (layerBelow view (onPathComplemented view) node).critical.map fun edge =>
      layerBelow view (onPath view) edge.node
    match products.flatMap (·.critical), products.flatMap (·.others) with
    | [shared, other], [left, right] =>
      if shared ≠ other then .blocked
      else
        let recipe := Recipe.nand (.signal shared) (.or (.signal left) (.signal right))
        .found (if Network.isOr view.network node then .not recipe else recipe)
    | _, _ => .absent
  else
    .absent

/-- Looks for `a & !(b & !(x & d))`: three layers, each with one critical and
one other fanin, the critical ones of the upper two complemented. -/
def matchThreeLayer (view : DepthView Store) (node : Nat) : Match :=
  if view.isCritical node then
    let layers : Option (Edge × Edge × Edge × Edge × Edge) := do
      let (branch, a) ← (layerBelow view (onPathComplemented view) node).single?
      let (inner, b) ← (layerBelow view (onPathComplemented view) branch.node).single?
      let (x, d) ← (layerBelow view (onPath view) inner.node).single?
      return (branch, a, b, x, d)
    match layers with
    | none => .absent
    | some (branch, a, b, x, d) =>
      if edgeLevel view branch < edgeLevel view a + 2 then .blocked
      else
        .found (.nand (.not (.and (.signal x) (.and (.signal a) (.signal d))))
          (.not (.and (.signal a) (.not (.signal b)))))
  else
    .absent

def examine (rule : Rule) (view : DepthView Store) (node : Nat) : Match :=
  match rule with
  | .associativity => matchAssociativity view node
  | .distributivity => matchDistributivity view node
  | .threeLayerDistributivity => matchThreeLayer view node

end Rule

end AndInverter
