import AndInverter.Aiger.Builder
import AndInverter.Aiger.Delta

/-!
# Netlists with consecutive variables

The inputs are the first variables and the gates the next ones.  Such a
netlist can be written in either format: the ASCII format names each variable,
the binary format leaves the names away and writes the gates by deltas.
-/

namespace AndInverter

/-- The literals of all nodes are words of a file, and so is the number of
outputs. -/
structure Aig.Addressable (aig : Aig) : Prop where
  literals : 2 * aig.size < Word.limit
  outputs : aig.outputs.size < Word.limit

namespace Aiger

def lineOf : List String → String
  | [] => "\n"
  | [word] => word ++ "\n"
  | word :: words => word ++ " " ++ lineOf words

def linesOf (lines : List (List String)) : List UInt8 :=
  lines.flatMap fun words => (lineOf words).toUTF8.toList

/-- Definitions of consecutive variables from the given one on. -/
def numbered : (name : Nat) → List (Nat × Nat) → List Definition
  | _, [] => []
  | name, (left, right) :: gates =>
    { target := name, left := left, right := right } :: numbered (name + 1) gates

def Definition.words (definition : Definition) : List String :=
  [toString (2 * definition.target), toString definition.left, toString definition.right]

/-- The deltas from a gate to its larger fanin, and from there to the smaller
one. -/
def Definition.deltas (definition : Definition) : List UInt8 :=
  encodeDelta (2 * definition.target - definition.left) ++
    encodeDelta (definition.left - definition.right)

/-- The larger fanin comes first and is below the gate. -/
def Definition.Descends (definition : Definition) : Prop :=
  definition.right ≤ definition.left ∧ definition.left < 2 * definition.target

instance (definition : Definition) : Decidable definition.Descends :=
  inferInstanceAs (Decidable (_ ∧ _))

structure Netlist where
  maxVariable : Nat
  /-- The number of inputs. -/
  inputs : Nat
  /-- The literals of the outputs. -/
  outputs : List Nat
  /-- The literals of the two fanins of each gate. -/
  gates : List (Nat × Nat)

namespace Netlist

def header (netlist : Netlist) : Header :=
  { maxVariable := netlist.maxVariable
    inputs := netlist.inputs
    outputs := netlist.outputs.length
    gates := netlist.gates.length }

/-- The header announces enough variables, and its numbers and the literals
of the variables fit into 64 bits. -/
structure Headed (netlist : Netlist) : Prop where
  enough : netlist.inputs + netlist.gates.length ≤ netlist.maxVariable
  fits : 2 * (netlist.maxVariable + 1) < Word.limit
  outputs : netlist.outputs.length < Word.limit

def headerWords (netlist : Netlist) (format : String) : List String :=
  [format, toString netlist.maxVariable, toString netlist.inputs, "0",
    toString netlist.outputs.length, toString netlist.gates.length]

def inputNames (netlist : Netlist) : List Nat :=
  List.range' 1 netlist.inputs

def inputWords (netlist : Netlist) : List (List String) :=
  netlist.inputNames.map fun name => [toString (2 * name)]

def outputWords (netlist : Netlist) : List (List String) :=
  netlist.outputs.map fun literal => [toString literal]

def definitions (netlist : Netlist) : List Definition :=
  numbered (netlist.inputs + 1) netlist.gates

/-- A gate reads its larger fanin first, and that is below it. -/
def Descends (netlist : Netlist) : Prop :=
  ∀ definition ∈ netlist.definitions, definition.Descends

instance (netlist : Netlist) : Decidable netlist.Descends :=
  inferInstanceAs (Decidable (∀ definition ∈ netlist.definitions, definition.Descends))

def asciiFile (netlist : Netlist) : List UInt8 :=
  linesOf [netlist.headerWords "aag"] ++ linesOf netlist.inputWords ++
    linesOf netlist.outputWords ++ linesOf (netlist.definitions.map Definition.words)

def binaryFile (netlist : Netlist) : List UInt8 :=
  linesOf [netlist.headerWords "aig"] ++ linesOf netlist.outputWords ++
    netlist.definitions.flatMap Definition.deltas

end Netlist

end Aiger

end AndInverter
