import AndInverter.Aig.Semantics
import AndInverter.Aiger.Ascii

/-!
# The grammar of ASCII files

Which bytes form a file in the ASCII format, said without a reader, and what
a file denotes: its gates are equations between variables, and each output is
a literal.  A description is consistent if every variable in use has one
definition and no definition depends on itself.
-/

namespace AndInverter

namespace Aiger

/-- A token that spells a number below 2^64: decimal digits, after at most one
plus sign. -/
def Spells (token : String) (number : Nat) : Prop :=
  number < Word.limit ∧ ∃ digits : List Char, digits ≠ [] ∧
    (token.toList = digits ∨ token.toList = '+' :: digits) ∧
    (∀ digit ∈ digits, '0' ≤ digit ∧ digit ≤ '9') ∧
    number = digits.foldl (fun value digit => 10 * value + (digit.toNat - '0'.toNat)) 0

/-- Bytes that begin with a line of the given tokens and go on with the given
rest: the line ends at the first line feed, or at the end of the file. -/
def BeginsWith (content : List UInt8) (line : List String) (rest : List UInt8) : Prop :=
  ∃ (text : String) (body : List UInt8), 0x0A ∉ body ∧
    (text.toUTF8.toList = body ++ [0x0A] ∨
      text.toUTF8.toList = body ∧ body ≠ [] ∧ rest = []) ∧
    content = text.toUTF8.toList ++ rest ∧ line = tokens text.toList

/-- Bytes that begin with one line for each entry. -/
inductive Lines {Entry : Type} (spelled : List String → Entry → Prop) :
    List UInt8 → List Entry → List UInt8 → Prop
  | done (content : List UInt8) : Lines spelled content [] content
  | next {content following rest : List UInt8} {line : List String} {entry : Entry}
      {entries : List Entry} (begins : BeginsWith content line following)
      (spells : spelled line entry) (others : Lines spelled following entries rest) :
      Lines spelled content (entry :: entries) rest

def HeaderLine (line : List String) (header : Header) : Prop :=
  ∃ format maxVariable inputs latches outputs gates,
    line = [format, maxVariable, inputs, latches, outputs, gates] ∧
    (format = "aag" ∨ format = "aig") ∧
    Spells maxVariable header.maxVariable ∧
    Spells inputs header.inputs ∧
    Spells latches 0 ∧
    Spells outputs header.outputs ∧
    Spells gates header.gates

/-- The token of an input line: the literal of a variable. -/
def InputLine (line : List String) (name : Nat) : Prop :=
  ∃ token, line = [token] ∧ Spells token (2 * name) ∧ name ≠ 0

def OutputLine (line : List String) (literal : Nat) : Prop :=
  ∃ token, line = [token] ∧ Spells token literal

def GateLine (line : List String) (definition : Definition) : Prop :=
  ∃ target left right, line = [target, left, right] ∧
    Spells target (2 * definition.target) ∧ definition.target ≠ 0 ∧
    Spells left definition.left ∧ Spells right definition.right

/-- What a file says: the largest variable, the variables of its inputs, its
gates and the literals of its outputs. -/
structure Description where
  maxVariable : Nat
  inputs : List Nat
  outputs : List Nat
  definitions : List Definition
  deriving DecidableEq

def Description.header (description : Description) : Header :=
  { maxVariable := description.maxVariable
    inputs := description.inputs.length
    outputs := description.outputs.length
    gates := description.definitions.length }

/-- Bytes that form a file with the given description. -/
def Describes (content : List UInt8) (description : Description) : Prop :=
  ∃ line body outputs gates rest,
    BeginsWith content line body ∧ HeaderLine line description.header ∧
    Lines InputLine body description.inputs outputs ∧
    Lines OutputLine outputs description.outputs gates ∧
    Lines GateLine gates description.definitions rest

namespace Description

/-- The variables that have a definition, the constant apart. -/
def defined (description : Description) : List Nat :=
  description.inputs ++ description.definitions.map (·.target)

def Bound (description : Description) (literal : Nat) : Prop :=
  literal / 2 = 0 ∨ literal / 2 ∈ description.defined

def Depends (description : Description) (target operand : Nat) : Prop :=
  ∃ definition ∈ description.definitions, definition.target = target ∧
    (definition.left / 2 = operand ∨ definition.right / 2 = operand)

/-- There are enough variables, each has one definition, all that is used is
defined, and no definition depends on itself. -/
structure Consistent (description : Description) : Prop where
  enough : description.inputs.length + description.definitions.length ≤ description.maxVariable
  fits : 2 * (description.maxVariable + 1) < Word.limit
  distinct : description.defined.Nodup
  inRange : ∀ name ∈ description.defined, name ≤ description.maxVariable
  operands : ∀ definition ∈ description.definitions,
    description.Bound definition.left ∧ description.Bound definition.right
  outputs : ∀ literal ∈ description.outputs, description.Bound literal
  acyclic : ∀ name, ¬ Relation.TransGen description.Depends name name

def literalValue (valuation : Nat → Bool) (literal : Nat) : Bool :=
  valuation (literal / 2) ^^ decide (literal % 2 = 1)

/-- A valuation of the variables that solves the equations of the file under
an assignment of its inputs. -/
structure Solves (description : Description) (assignment : Nat → Bool)
    (valuation : Nat → Bool) : Prop where
  constant : valuation 0 = false
  inputs : ∀ (index name : Nat), description.inputs[index]? = some name →
    valuation name = assignment index
  definitions : ∀ definition ∈ description.definitions,
    valuation definition.target =
      (literalValue valuation definition.left && literalValue valuation definition.right)

/-- A graph computes what a description says: it has the inputs and outputs,
and under every assignment the equations have a solution, which is unique on
all that is defined, and the outputs have the values of their literals. -/
structure Denotes (description : Description) (aig : Aig) : Prop where
  inputs : aig.inputs.size = description.inputs.length
  outputs : aig.outputs.size = description.outputs.length
  solution : ∀ assignment, ∃ valuation, description.Solves assignment valuation ∧
    (∀ other, description.Solves assignment other → ∀ literal, description.Bound literal →
      literalValue other literal = literalValue valuation literal) ∧
    ∀ (index literal : Nat) (output : Edge), description.outputs[index]? = some literal →
      aig.outputs[index]? = some output → ∀ value,
        aig.EdgeEvaluates assignment output value ↔ value = literalValue valuation literal

/-- The same description up to the order in which gates are listed. -/
structure Rearranges (description other : Description) : Prop where
  maxVariable : other.maxVariable = description.maxVariable
  inputs : other.inputs = description.inputs
  outputs : other.outputs = description.outputs
  definitions : description.definitions.Perm other.definitions

end Description

end Aiger

end AndInverter
