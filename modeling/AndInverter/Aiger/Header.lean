import AndInverter.Aiger.Text

/-!
# Headers

Both formats begin with a line of six tokens: the name of the format, the
largest variable, and the numbers of inputs, latches, outputs and gates.  Only
files without latches are accepted.
-/

namespace AndInverter

namespace Aiger

/-- What the first line of a file announces. -/
structure Header where
  maxVariable : Nat
  inputs : Nat
  outputs : Nat
  gates : Nat
  deriving DecidableEq

namespace Header

/-- A header announces enough variables, and their literals, as well as the
first one after them, fit into 64 bits. -/
def check (maxVariable inputs latches outputs gates : Nat) : Except Failure Header :=
  if 0 < latches then
    .error (.parse .latches)
  else if maxVariable < inputs + gates then
    .error (.parse (.tooFewVariables maxVariable inputs gates))
  else if Word.limit ≤ 2 * (maxVariable + 1) then
    .error (.parse (.tooManyVariables maxVariable))
  else
    .ok { maxVariable := maxVariable, inputs := inputs, outputs := outputs, gates := gates }

def ofTokens : List String → Except Failure Header
  | format :: maxVariable :: inputs :: latches :: outputs :: gates :: rest =>
    if format ≠ "aag" ∧ format ≠ "aig" then
      .error (.parse .unknownFormat)
    else do
      let maxVariable ← readNumber maxVariable
      let inputs ← readNumber inputs
      let latches ← readNumber latches
      let outputs ← readNumber outputs
      let gates ← readNumber gates
      if rest.isEmpty then
        check maxVariable inputs latches outputs gates
      else
        .error (.parse .longHeader)
  | _ => .error (.parse .shortHeader)

def read (content : List UInt8) : Except Failure (Header × List UInt8) := do
  let (line, content) ← readTokens content
  let header ← ofTokens line
  return (header, content)

end Header

end Aiger

end AndInverter
