import AndInverter.Rewriting.Rule

/-!
# Statistics and log of a run

A run counts its rewrites per rule and its passes, and reports what it does
in a list of records, each with a severity and a wording.
-/

namespace AndInverter

structure Statistics where
  associativity : Nat := 0
  distributivity : Nat := 0
  threeLayerDistributivity : Nat := 0
  /-- The number of enumerations of the gates, interrupted ones included. -/
  passes : Nat := 0
  depthBefore : Nat := 0
  depthAfter : Nat := 0
  gatesBefore : Nat := 0
  gatesAfter : Nat := 0
  deriving DecidableEq

namespace Statistics

def rewrites (statistics : Statistics) : Nat :=
  statistics.associativity + statistics.distributivity + statistics.threeLayerDistributivity

def record (statistics : Statistics) : Rule → Statistics
  | .associativity =>
      { statistics with associativity := statistics.associativity + 1 }
  | .distributivity =>
      { statistics with distributivity := statistics.distributivity + 1 }
  | .threeLayerDistributivity =>
      { statistics with threeLayerDistributivity := statistics.threeLayerDistributivity + 1 }

end Statistics

inductive Severity where
  | trace
  | debug
  | info
  deriving DecidableEq

def Severity.text : Severity → String
  | .trace => "TRACE"
  | .debug => "DEBUG"
  | .info => "INFO"

/-- One thing that a run did or found. -/
inductive Record where
  | change (change : Change)
  /-- A rule found its shape, but nothing to gain. -/
  | blocked (rule : Rule) (node : Nat)
  /-- What a rule built turned out to be the node itself. -/
  | unchanged (rule : Rule) (node : Nat)
  /-- A rule replaces a node of the given level. -/
  | replacing (rule : Rule) (node level : Nat) (replacement : Edge)
  /-- The run stops because it may not rewrite any more. -/
  | stopping (rewrites : Nat)
  | finished (statistics : Statistics)
  deriving DecidableEq

namespace Record

def severity : Record → Severity
  | .change _ | .blocked _ _ | .unchanged _ _ => .trace
  | .replacing _ _ _ _ => .debug
  | .stopping _ | .finished _ => .info

/-- What keeps a rule from replacing a node of its shape. -/
def obstacle : Rule → String
  | .associativity | .threeLayerDistributivity => "slack"
  | .distributivity => "shared critical signal"

def message : Record → String
  | .change (.substituting old new) => s!"substituting node {old} by {new.text}"
  | .change (.reclaiming node) => s!"reclaiming node {node}"
  | .blocked rule node => s!"{rule.text}: node {node} has no {obstacle rule}"
  | .unchanged rule node => s!"{rule.text}: replacement of node {node} is the node itself"
  | .replacing rule node level replacement =>
      s!"{rule.text}: substituting node {node} (level {level}) by {replacement.text}"
  | .stopping rewrites => s!"stopping after {rewrites} rewrites"
  | .finished statistics =>
      s!"algebraic rewriting: {statistics.rewrites} rewrites " ++
        s!"({statistics.associativity} assoc, {statistics.distributivity} distr, " ++
        s!"{statistics.threeLayerDistributivity} 3-layer distr), " ++
        s!"depth {statistics.depthBefore} -> {statistics.depthAfter}, " ++
        s!"gates {statistics.gatesBefore} -> {statistics.gatesAfter}"

/-- A record as a line of a log: its severity, then its wording. -/
def line (record : Record) : String :=
  s!"{record.severity.text} {record.message}"

end Record

end AndInverter
