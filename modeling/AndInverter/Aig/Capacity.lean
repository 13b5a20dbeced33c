import AndInverter.Aig.Integrity
import AndInverter.Aig.Substitution

/-!
# Output counters of 32 bits

The outputs on a node are counted in a word of 32 bits, in the slot of the
node and once more by the integrity check.  The operations here are those that
count outputs: adding one, moving those of a substituted node one by one, and
the check.  A counter leaves its words neither upwards nor downwards.  The
rest of the library counts without a bound, which comes to the same as long as
there are fewer than 2^32 outputs.
-/

namespace AndInverter

namespace Counter

/-- The number of words of 32 bits: every counter is below. -/
def limit : Nat :=
  1 <<< 32

/-- A counter that can be increased is not the largest word. -/
def requireRoom (counter : Nat) : Except Failure Unit :=
  require (decide (counter + 1 < limit))

/-- A counter that can be decreased is not zero. -/
def requireUse (counter : Nat) : Except Failure Unit :=
  require (decide (0 < counter))

end Counter

namespace Aig

/-- All counters are words of 32 bits. -/
def CountersFit (aig : Aig) : Prop :=
  ∀ id, aig.outputRefs id < Counter.limit

def addOutputCounted (aig : Aig) (edge : Edge) : Except Failure Aig := do
  aig.checkEdge edge
  Counter.requireRoom (aig.outputRefs edge.node)
  return { aig.adjustRefs edge.node (· + 1) with outputs := aig.outputs.push edge }

/-- Counts an output of the old node for the new one. -/
def moveOutputCounted (substitution : Substitution) (aig : Aig) (output : Edge) :
    Except Failure Aig :=
  if output.node = substitution.old then do
    Counter.requireUse (aig.outputRefs substitution.old)
    Counter.requireRoom (aig.outputRefs substitution.new.node)
    return (aig.adjustRefs substitution.old (· - 1)).adjustRefs substitution.new.node (· + 1)
  else
    return aig

def redirectOutputsCounted (aig : Aig) (substitution : Substitution) : Except Failure Aig := do
  let moved ← aig.outputs.toList.foldlM (moveOutputCounted substitution) aig
  return { moved with outputs := aig.outputs.map (redirect substitution) }

def replaceUsesCounted (aig : Aig) (substitution : Substitution) : Except Failure Replaced := do
  let redirected ← aig.redirectOutputsCounted substitution
  let (aig, instead) := redirected.rewireAll substitution (aig.fanouts substitution.old) []
  let (aig, reclaimed) := aig.reclaim [substitution.old]
  return { aig := aig, instead := instead, reclaimed := reclaimed }

def substituteAllCounted (aig : Aig) : (fuel : Nat) → List Substitution →
    Except Failure (Aig × List Change)
  | _, [] => .ok (aig, [])
  | 0, _ :: _ => .error .exhausted
  | fuel + 1, substitution :: pending =>
    if aig.applies substitution then do
      let replaced ← aig.replaceUsesCounted substitution
      let (aig, later) ← replaced.aig.substituteAllCounted fuel (replaced.instead ++ pending)
      return (aig, .substituting substitution.old substitution.new ::
        replaced.reclaimed.map .reclaiming ++ later)
    else
      aig.substituteAllCounted fuel pending

def substituteCounted (fuel : Nat) (aig : Aig) (old : Nat) (new : Edge) :
    Except Failure (Aig × List Change) :=
  aig.substituteAllCounted fuel [{ old := old, new := new }]

def countOutputCounted (aig : Aig) (counted : Array Nat) (output : Edge) :
    Except Failure (Array Nat) := do
  aig.checkReads output
  require (decide (output.node < counted.size))
  Counter.requireRoom (counted.getD output.node 0)
  return counted.modify output.node (· + 1)

def checkIntegrityCounted (aig : Aig) : Except Failure Unit := do
  (List.range aig.size).forM aig.checkSlot
  aig.inputs.toList.forM aig.checkInput
  let counted ← aig.outputs.toList.foldlM aig.countOutputCounted (Array.replicate aig.size 0)
  demand (counted == aig.counters) .staleReferences
  aig.table.toList.forM aig.checkEntry
  let _ ← topologicalSort aig aig.liveNodes

end Aig

end AndInverter
