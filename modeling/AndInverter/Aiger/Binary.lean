import AndInverter.Aiger.Builder
import AndInverter.Aiger.Delta
import AndInverter.Aiger.Numbering

/-!
# The binary format

The inputs are the first variables and the gates the next ones, so that
neither is named.  After the header come the lines of the outputs, and then,
for each gate, the delta from its own literal to its larger fanin and the
delta from there to the smaller one.
-/

namespace AndInverter

namespace Aiger

def definitionOf (literal first second : Nat) : Except Failure Definition :=
  match Word.difference? literal first with
  | none => .error (.parse (.invalidDeltas literal))
  | some left =>
    match Word.difference? left second with
    | none => .error (.parse (.invalidDeltas literal))
    | some right =>
      if first = 0 then
        .error (.parse (.selfReference literal))
      else
        .ok { target := literal / 2, left := left, right := right }

/-- Reads the deltas of consecutive gates from the given literal on, and
builds each gate at once. -/
def readGates : (count literal : Nat) → Builder → List UInt8 → Except Failure Builder
  | 0, _, builder, _ => .ok builder
  | count + 1, literal, builder, content => do
    let (first, content) ← decodeDelta content
    let (second, content) ← decodeDelta content
    let definition ← definitionOf literal first second
    let builder ← builder.build definition
    let next ← Word.sum literal 2
    readGates count next builder content

def firstGate (inputs : Nat) : Except Failure Nat :=
  if 2 * (inputs + 1) < Word.limit then .ok (2 * (inputs + 1))
  else .error (.parse .tooManyInputs)

/-- Reads the lines and builds the gates.  It remains to add the outputs. -/
def buildBinary (content : List UInt8) : Except Failure (Builder × List Nat) := do
  let (header, content) ← Header.read content
  let builder ← (List.range' 1 header.inputs).foldlM Builder.addInput (Builder.start header)
  let (outputs, content) ← readLines (readLiteral .output) header.outputs content
  let literal ← firstGate header.inputs
  let builder ← readGates header.gates literal builder content
  return (builder, outputs)

def readBinary (content : List UInt8) : Except Failure Aig := do
  let (builder, outputs) ← buildBinary content
  builder.finish outputs

def deltaBytes (larger smaller : Nat) : Except Failure (List UInt8) :=
  match Word.difference? larger smaller with
  | some delta => .ok (encodeDelta delta)
  | none => .error .assertion

def gateBytes : Nat × Nat × Nat → Except Failure (List UInt8)
  | (literal, left, right) => do
    let first ← deltaBytes literal left
    let second ← deltaBytes left right
    return first ++ second

def writeBinary (aig : Aig) : Except Failure (List UInt8) := do
  let numbering ← Numbering.ofAig aig
  let gates ← (numbering.gateLines aig).mapM gateBytes
  let text := numbering.headerLine aig "aig" ++ numbering.outputLines aig
  return text.toUTF8.toList ++ gates.flatten

end Aiger

end AndInverter
