import AndInverter.Aiger.Capacity

/-!
# Circuit files

The extension of a file's name tells its format.  The extension is what
follows the last dot, unless nothing comes before that dot.
-/

namespace AndInverter

namespace Aiger

inductive Format where
  | ascii
  | binary
  deriving DecidableEq

/-- The characters before and after the last dot, if there is a dot. -/
def splitLastDot : List Char → Option (List Char × List Char)
  | [] => none
  | character :: characters =>
    match splitLastDot characters with
    | some (stem, extension) => some (character :: stem, extension)
    | none => if character = '.' then some ([], characters) else none

def extension? (name : String) : Option String :=
  if name = ".." then none
  else
    match splitLastDot name.toList with
    | some (_ :: _, extension) => some (String.ofList extension)
    | _ => none

def formatOf (name : String) : Except Failure Format :=
  match extension? name with
  | some "aag" => .ok .ascii
  | some "aig" => .ok .binary
  | _ => .error (.parse .unknownExtension)

def loadFile (name : String) : Option (List UInt8) → Except Failure Aig
  | none => .error (.parse .missingFile)
  | some content => do
    match ← formatOf name with
    | .ascii => readAsciiCounted content
    | .binary => readBinaryCounted content

def storeFile (name : String) (aig : Aig) : Except Failure (List UInt8) := do
  match ← formatOf name with
  | .ascii =>
    let text ← writeAscii aig
    return text.toUTF8.toList
  | .binary => writeBinary aig

end Aiger

end AndInverter
