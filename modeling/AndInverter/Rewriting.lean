import AndInverter.Rewriting.Record

/-!
# Algebraic rewriting

A pass goes through the gates and tries the enabled rules on each.  The first
one that replaces a gate ends the pass; levels are computed anew and the next
pass starts over.  The run ends with a pass that replaces nothing, or as soon
as it has made as many rewrites as it may.
-/

namespace AndInverter

/-- Which rules a run may use, and how often. -/
structure Parameters where
  associativity : Bool := true
  distributivity : Bool := true
  threeLayerDistributivity : Bool := true
  /-- The largest number of rewrites, if it is limited. -/
  maxRewrites : Option Nat := none
  deriving DecidableEq

namespace Parameters

def enables (parameters : Parameters) : Rule → Bool
  | .associativity => parameters.associativity
  | .distributivity => parameters.distributivity
  | .threeLayerDistributivity => parameters.threeLayerDistributivity

def rules (parameters : Parameters) : List Rule :=
  [Rule.associativity, .distributivity, .threeLayerDistributivity].filter parameters.enables

/-- Whether the given number of rewrites leaves no room for another one. -/
def reached (parameters : Parameters) (rewrites : Nat) : Bool :=
  parameters.maxRewrites.any (· ≤ rewrites)

end Parameters

namespace Rewriting

variable {Store : Type} [Network Store]

/-- What a rule proposes for a node: the edge to replace it by, if there is
one, and the view in which that edge was built. -/
structure Proposal (Store : Type) where
  replacement : Option Edge
  view : DepthView Store
  records : List Record

/-- Examines a node and builds the replacement that the rule asks for. -/
def propose (rule : Rule) (view : DepthView Store) (node : Nat) :
    Except Failure (Proposal Store) :=
  match rule.examine view node with
  | .absent => .ok { replacement := none, view := view, records := [] }
  | .blocked => .ok { replacement := none, view := view, records := [.blocked rule node] }
  | .found recipe => do
    let (edge, view) ← recipe.build view
    if edge.node = node then
      return { replacement := none, view := view, records := [.unchanged rule node] }
    else
      return {
        replacement := some edge
        view := view
        records := [.replacing rule node (view.level node) edge] }

/-- How far a search for a rewrite came: the rule that replaced a node, if
one did, and the view as it is then. -/
structure Progress (Store : Type) where
  fired : Option Rule
  view : DepthView Store
  records : List Record

/-- Tries rules on a node until one of them replaces it. -/
def tryRules (fuel : Nat) (node : Nat) (view : DepthView Store) :
    List Rule → Except Failure (Progress Store)
  | [] => .ok { fired := none, view := view, records := [] }
  | rule :: rules => do
    let proposal ← propose rule view node
    match proposal.replacement with
    | some edge =>
      let (view, changes) ← Network.substitute fuel proposal.view node edge
      return {
        fired := some rule
        view := view
        records := proposal.records ++ changes.map .change }
    | none =>
      let progress ← tryRules fuel node proposal.view rules
      return { progress with records := proposal.records ++ progress.records }

/-- Tries the rules on each of the nodes that is still in the network, until
one of them is replaced. -/
def tryNodes (fuel : Nat) (rules : List Rule) (view : DepthView Store) :
    List Nat → Except Failure (Progress Store)
  | [] => .ok { fired := none, view := view, records := [] }
  | node :: nodes =>
    if Network.isDead view node then
      tryNodes fuel rules view nodes
    else do
      let progress ← tryRules fuel node view rules
      match progress.fired with
      | some _ => return progress
      | none =>
        let rest ← tryNodes fuel rules progress.view nodes
        return { rest with records := progress.records ++ rest.records }

/-- One enumeration of the gates. -/
def pass (fuel : Nat) (parameters : Parameters) (view : DepthView Store) :
    Except Failure (Progress Store) :=
  tryNodes fuel parameters.rules view (Network.gates view)

/-- A run: its statistics, the view at its end, and its records. -/
structure Run (Store : Type) where
  statistics : Statistics
  view : DepthView Store
  records : List Record

/-- Makes passes until one of them replaces nothing or the limit is reached.
`rounds` bounds the number of passes, `fuel` the steps of each
substitution. -/
def passes (fuel : Nat) (parameters : Parameters) :
    (rounds : Nat) → Statistics → DepthView Store → Except Failure (Run Store)
  | 0, _, _ => .error .exhausted
  | rounds + 1, statistics, view =>
    if parameters.reached statistics.rewrites then
      .ok {
        statistics := statistics
        view := view
        records := [.stopping statistics.rewrites] }
    else do
      let progress ← pass fuel parameters view
      let statistics := { statistics with passes := statistics.passes + 1 }
      match progress.fired with
      | none => return { statistics := statistics, view := progress.view, records := progress.records }
      | some rule =>
        let view ← progress.view.refresh
        let run ← passes fuel parameters rounds (statistics.record rule) view
        return { run with records := progress.records ++ run.records }

def gateCount (view : DepthView Store) : Nat :=
  (Network.gates view.network).length

def run (fuel : Nat) (parameters : Parameters) (view : DepthView Store) :
    Except Failure (Run Store) := do
  let view ← view.refresh
  let start : Statistics := { depthBefore := view.depth, gatesBefore := gateCount view }
  let run ← passes fuel parameters fuel start view
  let statistics := { run.statistics with
    depthAfter := run.view.depth
    gatesAfter := gateCount run.view }
  return { run with
    statistics := statistics
    records := run.records ++ [.finished statistics] }

def optimize (fuel : Nat) (parameters : Parameters) (network : Store) :
    Except Failure (Run Store) := do
  let view ← DepthView.ofNetwork network
  run fuel parameters view

/-- A number of steps that no run of practical size uses up. -/
def ampleFuel : Nat :=
  1000000000000000000

end Rewriting

end AndInverter
