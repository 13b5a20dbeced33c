import AndInverter.Aig.Capacity
import AndInverter.Aiger.Ascii
import AndInverter.Aiger.Binary

/-!
# Reading with output counters of 32 bits

The readers add the outputs of a file last.  Here each output is counted in a
word of 32 bits, so that a file with too many outputs on one node cannot be
read.
-/

namespace AndInverter

namespace Aiger

namespace Builder

def addOutputCounted (builder : Builder) (literal : Nat) : Except Failure Builder := do
  let edge ← builder.resolve literal
  let aig ← builder.aig.addOutputCounted edge
  return { builder with aig := aig }

def finishCounted (builder : Builder) (outputs : List Nat) : Except Failure Aig := do
  let builder ← outputs.foldlM addOutputCounted builder
  builder.aig.checkIntegrityCounted
  return builder.aig

/-- While the given outputs are added, the counter of some node leaves the
words of 32 bits.  Outputs are added up to the first one that is not
defined. -/
def Overflows (builder : Builder) (outputs : List Nat) : Prop :=
  ∃ edges : List Edge, edges.map some <+: outputs.map builder.signal? ∧
    ∃ id, Counter.limit ≤ builder.aig.outputRefs id + edges.countP (·.node == id)

end Builder

def readAsciiCounted (content : List UInt8) : Except Failure Aig := do
  let (builder, outputs) ← buildAscii content
  builder.finishCounted outputs

def readBinaryCounted (content : List UInt8) : Except Failure Aig := do
  let (builder, outputs) ← buildBinary content
  builder.finishCounted outputs

end Aiger

end AndInverter
