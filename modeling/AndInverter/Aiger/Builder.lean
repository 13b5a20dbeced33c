import AndInverter.Aig.Integrity
import AndInverter.Aiger.Header

/-!
# Building a graph from definitions

While a file is read, each variable that was defined is bound to the signal
that computes it.  Either the operands of a gate have to be bound when its
turn comes, or gates may be listed in any order and each is built as soon as
both of its operands are bound.
-/

namespace AndInverter

namespace Aiger

/-- The definition of a variable as the conjunction of two literals. -/
structure Definition where
  target : Nat
  left : Nat
  right : Nat
  deriving DecidableEq

/-- A graph under construction, with the signals of the variables defined so
far. -/
structure Builder where
  aig : Aig
  signals : Std.TreeMap Nat Edge
  maxVariable : Nat

namespace Builder

/-- Nothing but the constant, variable 0, is defined. -/
def start (header : Header) : Builder :=
  { aig := .empty
    signals := (∅ : Std.TreeMap Nat Edge).insert 0 (.constant false)
    maxVariable := header.maxVariable }

def signal? (builder : Builder) (literal : Nat) : Option Edge :=
  (builder.signals[literal / 2]?).map (·.complementIf (literal % 2 = 1))

def resolve (builder : Builder) (literal : Nat) : Except Failure Edge :=
  match builder.signal? literal with
  | some edge => .ok edge
  | none => .error (.parse (.undefinedLiteral literal))

def define (builder : Builder) (name : Nat) (edge : Edge) : Except Failure Builder :=
  if builder.maxVariable < name then
    .error (.parse (.variableOutOfRange name))
  else if builder.signals.contains name then
    .error (.parse (.definedTwice name))
  else
    .ok { builder with signals := builder.signals.insert name edge }

def addInput (builder : Builder) (name : Nat) : Except Failure Builder :=
  let (edge, aig) := builder.aig.addInput
  { builder with aig := aig }.define name edge

def addGate (builder : Builder) (definition : Definition) (left right : Edge) :
    Except Failure Builder := do
  let (edge, aig) ← builder.aig.createAnd left right
  { builder with aig := aig }.define definition.target edge

def build (builder : Builder) (definition : Definition) : Except Failure Builder := do
  let left ← builder.resolve definition.left
  let right ← builder.resolve definition.right
  builder.addGate definition left right

/-- Goes through definitions once and returns those whose operands were not
both defined when their turn came. -/
def pass : Builder → List Definition → Except Failure (Builder × List Definition)
  | builder, [] => .ok (builder, [])
  | builder, definition :: definitions =>
    match builder.signal? definition.left, builder.signal? definition.right with
    | some left, some right => do
      let builder ← builder.addGate definition left right
      builder.pass definitions
    | _, _ => do
      let (builder, pending) ← builder.pass definitions
      return (builder, definition :: pending)

/-- Builds definitions in as many passes as it takes.  A pass that builds
nothing shows a definition that cannot be built. -/
def addGates (builder : Builder) (definitions : List Definition) : Except Failure Builder := do
  let (builder, pending) ← builder.pass definitions
  match pending with
  | [] => return builder
  | stuck :: _ =>
    if _fewer : pending.length < definitions.length then
      builder.addGates pending
    else
      throw (.parse (.unresolvableGate (2 * stuck.target)))
  termination_by definitions.length

def addOutput (builder : Builder) (literal : Nat) : Except Failure Builder := do
  let edge ← builder.resolve literal
  let aig ← builder.aig.addOutput edge
  return { builder with aig := aig }

/-- Adds all outputs and checks the result. -/
def finish (builder : Builder) (outputs : List Nat) : Except Failure Aig := do
  let builder ← outputs.foldlM addOutput builder
  builder.aig.checkIntegrity
  return builder.aig

end Builder

end Aiger

end AndInverter
