import AndInverter.Aiger.Builder
import AndInverter.Aiger.Numbering

/-!
# The ASCII format

After the header comes one line for each input, output and gate, in this
order; whatever follows is ignored.  Gates may be listed in any order.
-/

namespace AndInverter

namespace Aiger

def readInput (line : List String) : Except Failure Nat := do
  let literal ← readLiteral .input line
  checkEven literal
  if literal = 0 then
    throw (.parse .constantInput)
  return literal / 2

def readDefinition : List String → Except Failure Definition
  | [target, left, right] => do
    let target ← readNumber target
    let left ← readNumber left
    let right ← readNumber right
    checkEven target
    if target = 0 then
      throw (.parse .constantGate)
    return { target := target / 2, left := left, right := right }
  | _ :: _ :: _ :: token :: _ => .error (.parse (.trailingGateToken token))
  | _ => .error (.parse .shortGate)

/-- Reads the lines of the inputs and adds each input at once. -/
def readInputs : (count : Nat) → Builder → List UInt8 → Except Failure (Builder × List UInt8)
  | 0, builder, content => .ok (builder, content)
  | count + 1, builder, content => do
    let (line, content) ← readTokens content
    let name ← readInput line
    let builder ← builder.addInput name
    readInputs count builder content

/-- Reads all lines and builds the gates.  It remains to add the outputs. -/
def buildAscii (content : List UInt8) : Except Failure (Builder × List Nat) := do
  let (header, content) ← Header.read content
  let (builder, content) ← readInputs header.inputs (Builder.start header) content
  let (outputs, content) ← readLines (readLiteral .output) header.outputs content
  let (definitions, _) ← readLines readDefinition header.gates content
  let builder ← builder.addGates definitions
  return (builder, outputs)

def readAscii (content : List UInt8) : Except Failure Aig := do
  let (builder, outputs) ← buildAscii content
  builder.finish outputs

def writeAscii (aig : Aig) : Except Failure String := do
  let numbering ← Numbering.ofAig aig
  let inputs := (List.range aig.inputs.size).map fun index =>
    Numbering.literalLine (2 * (index + 1))
  let gates := (numbering.gateLines aig).map fun (target, left, right) =>
    s!"{target} {left} {right}\n"
  return numbering.headerLine aig "aag" ++ String.join inputs ++
    numbering.outputLines aig ++ String.join gates

end Aiger

end AndInverter
