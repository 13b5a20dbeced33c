import AndInverter.Aig.WellFormed
import AndInverter.Rewriting

/-!
# Histories of operations

The graphs that operations lead to, from the empty one.  Which substitutions
a history may hold is a parameter: any, or only those that cannot close a
cycle.  The other gate operations and the readers of circuit files consist of
the operations listed here.
-/

namespace AndInverter

namespace Aig

inductive Step (allowed : Aig → Substitution → Prop) : Aig → Aig → Prop
  | addInput (aig : Aig) : Step allowed aig aig.addInput.2
  | addOutput {aig next : Aig} {edge : Edge}
      (added : aig.addOutput edge = .ok next) : Step allowed aig next
  | createAnd {aig next : Aig} {left right edge : Edge}
      (created : aig.createAnd left right = .ok (edge, next)) : Step allowed aig next
  | cleanup (aig : Aig) : Step allowed aig aig.cleanup
  | substitute {aig next : Aig} {fuel : Nat} {substitution : Substitution}
      {changes : List Change} (permitted : allowed aig substitution)
      (substituted :
        aig.substitute fuel substitution.old substitution.new = .ok (next, changes)) :
      Step allowed aig next
  | optimize {aig : Aig} {fuel : Nat} {parameters : Parameters}
      {run : Rewriting.Run Aig}
      (optimized : Rewriting.optimize fuel parameters aig = .ok run) :
      Step allowed aig run.view.network

def anySubstitution (_ : Aig) (_ : Substitution) : Prop :=
  True

/-- The replacing edge does not depend on the replaced node. -/
def independent (aig : Aig) (substitution : Substitution) : Prop :=
  ¬ Network.Reaches aig substitution.new.node substitution.old

/-- One graph is what operations have made of another. -/
def Evolves : Aig → Aig → Prop :=
  Relation.ReflTransGen (Step anySubstitution)

/-- Operations lead from the empty graph to this one. -/
def Reachable (aig : Aig) : Prop :=
  Evolves .empty aig

/-- Operations lead from the empty graph to this one, and no substitution
among them could close a cycle. -/
def SafelyReachable (aig : Aig) : Prop :=
  Relation.ReflTransGen (Step independent) .empty aig

end Aig

end AndInverter
