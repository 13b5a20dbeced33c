import AndInverter.Aig.Reclaim
import AndInverter.Network

/-!
# Substitution

Substituting a node by an edge redirects its uses: outputs first, then the
gates that read it.  A gate whose new fanins make it trivial, or equal to
another gate, is left as it is and becomes a substitution of its own, to be
done next.  A substituted node is reclaimed once nothing reads it.
-/

namespace AndInverter

/-- A node and the edge that is to take its place. -/
structure Substitution where
  old : Nat
  new : Edge
  deriving DecidableEq

namespace Fanins

/-- The fanins with the substituted one replaced, if there is one.  The new
edge takes over the polarity with which the old node was read. -/
def replace? (fanins : Fanins) (substitution : Substitution) : Option Fanins :=
  if fanins.first.node = substitution.old then
    some (.ordered fanins.second (substitution.new.complementIf fanins.first.complement))
  else if fanins.second.node = substitution.old then
    some (.ordered fanins.first (substitution.new.complementIf fanins.second.complement))
  else
    none

end Fanins

namespace Aig

def redirect (substitution : Substitution) (output : Edge) : Edge :=
  if output.node = substitution.old then
    substitution.new.complementIf output.complement
  else
    output

def redirectOutputs (aig : Aig) (substitution : Substitution) : Aig :=
  let moved := aig.outputs.countP (·.node = substitution.old)
  let aig := { aig with outputs := aig.outputs.map (redirect substitution) }
  (aig.adjustRefs substitution.old (· - moved)).adjustRefs
    substitution.new.node (· + moved)

/-- Gives a gate other fanins, of which one reads `new` in place of `old`. -/
def setFanins (aig : Aig) (gate : Nat) (before after : Fanins)
    (substitution : Substitution) : Aig :=
  let aig := (aig.unhash before gate).setNode gate (some (.gate gate after))
  ((aig.hash after gate).dropFanout substitution.old gate).addFanout
    substitution.new.node gate

/-- What a gate with the given fanins is to be substituted by, if it must not
become a gate of its own. -/
def merged? (aig : Aig) (old : Nat) (fanins : Fanins) : Option Edge :=
  match fanins.trivial? with
  | some edge => some edge
  | none =>
    match aig.table[fanins]? with
    | some gate => if gate = old then none else some (.plain gate)
    | none => none

/-- Redirects the fanin of a gate, or returns the substitution to perform
instead. -/
def rewire (aig : Aig) (gate : Nat) (substitution : Substitution) :
    Aig × Option Substitution :=
  match aig.gateFanins? gate with
  | none => (aig, none)
  | some before =>
    match before.replace? substitution with
    | none => (aig, none)
    | some after =>
      match aig.merged? substitution.old after with
      | some edge => (aig, some { old := gate, new := edge })
      | none => (aig.setFanins gate before after substitution, none)

/-- Redirects the given gates in turn.  The latest substitution to perform
instead comes first in the result. -/
def rewireAll (aig : Aig) (substitution : Substitution) :
    List Nat → List Substitution → Aig × List Substitution
  | [], instead => (aig, instead)
  | gate :: gates, instead =>
    let (aig, more) := aig.rewire gate substitution
    aig.rewireAll substitution gates (more.toList ++ instead)

def applies (aig : Aig) (substitution : Substitution) : Bool :=
  decide (substitution.new.node ≠ substitution.old) &&
    !aig.isDead substitution.old && !aig.isDead substitution.new.node

/-- The outcome of one substitution: the store, what is to be substituted
next, and the nodes that were reclaimed. -/
structure Replaced where
  aig : Aig
  instead : List Substitution
  reclaimed : List Nat

/-- Redirects every use of a node that can be redirected, and reclaims the
node if none is left. -/
def replaceUses (aig : Aig) (substitution : Substitution) : Replaced :=
  let (aig, instead) := (aig.redirectOutputs substitution).rewireAll substitution
    (aig.fanouts substitution.old) []
  let (aig, reclaimed) := aig.reclaim [substitution.old]
  { aig := aig, instead := instead, reclaimed := reclaimed }

/-- Performs the pending substitutions, the first one of the list first, in a
bounded number of steps. -/
def substituteAll (aig : Aig) : (fuel : Nat) → List Substitution →
    Except Failure (Aig × List Change)
  | _, [] => .ok (aig, [])
  | 0, _ :: _ => .error .exhausted
  | fuel + 1, substitution :: pending =>
    if aig.applies substitution then do
      let replaced := aig.replaceUses substitution
      let (aig, later) ← replaced.aig.substituteAll fuel (replaced.instead ++ pending)
      return (aig, .substituting substitution.old substitution.new ::
        replaced.reclaimed.map .reclaiming ++ later)
    else
      aig.substituteAll fuel pending

/-- Redirects every use of a node to an edge. -/
def substitute (fuel : Nat) (aig : Aig) (old : Nat) (new : Edge) :
    Except Failure (Aig × List Change) :=
  aig.substituteAll fuel [{ old := old, new := new }]

end Aig

end AndInverter
