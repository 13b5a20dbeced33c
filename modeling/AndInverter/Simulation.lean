import AndInverter.Aig.Construction
import AndInverter.Simulation.TruthTable

/-!
# Simulation

A word carries one value in each of its 64 lanes, and a network is simulated in
all lanes of some words at once.  With one lane for each assignment of the
inputs, the words of the outputs are their truth tables, and comparing these
decides whether two graphs compute the same functions.
-/

namespace AndInverter

namespace Aig

def edgeWords (values : Array (List (BitVec 64))) (edge : Edge) : List (BitVec 64) :=
  let flips := if edge.complement then BitVec.allOnes 64 else 0
  (values.getD edge.node []).map (· ^^^ flips)

/-- The number of words of a node: as many as each input has, and one if there
are no inputs. -/
def wordsPerNode (patterns : List (List (BitVec 64))) : Nat :=
  (patterns.head?.map List.length).getD 1

/-- The words of a node, given the words of the inputs and those of its
fanins. -/
def nodeWords (aig : Aig) (patterns : List (List (BitVec 64)))
    (values : Array (List (BitVec 64))) (id : Nat) : Except Failure (List (BitVec 64)) :=
  match aig.node? id with
  | none => .error (.error (.nodeDoesNotExist id))
  | some .constant => .ok (List.replicate (wordsPerNode patterns) 0)
  | some (.input _) =>
    match aig.inputs.toList.idxOf? id with
    | none => .error (.fault (.unregisteredInput id))
    | some index =>
      match patterns[index]? with
      | none => .error .assertion
      | some pattern => .ok pattern
  | some (.gate _ fanins) =>
    .ok (List.zipWith (· &&& ·) (edgeWords values fanins.first) (edgeWords values fanins.second))

/-- The words of all nodes below the roots; the other nodes have none. -/
def simulateBelow (aig : Aig) (roots : List Nat) (patterns : List (List (BitVec 64))) :
    Except Failure (Array (List (BitVec 64))) := do
  let order ← topologicalSort aig roots
  order.foldlM
    (fun values id => do
      let words ← aig.nodeWords patterns values id
      return values.setIfInBounds id words)
    (Array.replicate aig.size [])

/-- Simulates 64 assignments at once, one word for each input. -/
def simulate (aig : Aig) (patterns : List (BitVec 64)) : Except Failure (List (BitVec 64)) :=
  if patterns.length = aig.inputs.size then do
    let values ← aig.simulateBelow (Network.roots aig) (patterns.map ([·]))
    return aig.outputs.toList.map fun output => (edgeWords values output).headD 0
  else
    .error (.error (.inputsMismatch patterns.length aig.inputs.size))

def projections (aig : Aig) : Except Failure (List (List (BitVec 64))) :=
  if aig.inputs.size ≤ maxTableInputs then
    (List.range aig.inputs.size).mapM fun index => do
      let table ← TruthTable.projection aig.inputs.size index
      return table.words
  else
    .error (.error (.tooManyInputs aig.inputs.size))

def edgeTable (aig : Aig) (edge : Edge) : Except Failure TruthTable := do
  aig.checkEdge edge
  let patterns ← aig.projections
  let values ← aig.simulateBelow [edge.node] patterns
  let words :=
    if edge.node = 0 ∧ values.getD 0 [] = [] then
      List.replicate (TruthTable.wordCount aig.inputs.size) 0
    else
      edgeWords values edge
  return TruthTable.ofWords aig.inputs.size words

def truthTables (aig : Aig) : Except Failure (List TruthTable) := do
  let patterns ← aig.projections
  let values ← aig.simulateBelow (Network.roots aig) patterns
  return aig.outputs.toList.map fun output =>
    TruthTable.ofWords aig.inputs.size (edgeWords values output)

/-- Whether two graphs compute the same functions, inputs and outputs being
matched by position. -/
def equivalent (left right : Aig) : Except Failure Bool :=
  if left.inputs.size ≠ right.inputs.size then
    .error (.error (.inputsMismatch left.inputs.size right.inputs.size))
  else if left.outputs.size ≠ right.outputs.size then
    .error (.error (.outputsMismatch left.outputs.size right.outputs.size))
  else do
    let leftTables ← left.truthTables
    let rightTables ← right.truthTables
    return decide (leftTables = rightTables)

end Aig

end AndInverter
