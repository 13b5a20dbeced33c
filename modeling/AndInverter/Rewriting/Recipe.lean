import AndInverter.DepthView

/-!
# Recipes

A recipe says how to compute a signal from signals that exist already.  It is
built gate by gate, operands first, through a depth view, so that every gate
of the result has a level.
-/

namespace AndInverter

/-- A Boolean expression over signals of a network. -/
inductive Recipe where
  | signal (edge : Edge)
  | and (left right : Recipe)
  | not (operand : Recipe)
  deriving DecidableEq

namespace Recipe

def nand (left right : Recipe) : Recipe :=
  .not (.and left right)

def or (left right : Recipe) : Recipe :=
  .not (.and (.not left) (.not right))

def value (valuation : Nat → Bool) : Recipe → Bool
  | .signal edge => edge.value valuation
  | .and left right => left.value valuation && right.value valuation
  | .not operand => !operand.value valuation

def signals : Recipe → List Edge
  | .signal edge => [edge]
  | .and left right => left.signals ++ right.signals
  | .not operand => operand.signals

variable {Store : Type} [Network Store]

/-- Builds a recipe; the result is the edge that computes it. -/
def build : Recipe → DepthView Store → Except Failure (Edge × DepthView Store)
  | .signal edge, view => .ok (edge, view)
  | .and left right, view => do
    let (left, view) ← left.build view
    let (right, view) ← right.build view
    view.createAnd left right
  | .not operand, view => do
    let (edge, view) ← operand.build view
    return (edge.not, view)

end Recipe

end AndInverter
