/-!
# Faults of a circuit file

One constructor for each way in which a circuit file can be refused, and the
wording of each.  A cause belongs to one of three kinds: the text is not what
the format asks for, the format is used beyond what is supported, or the file
itself cannot be read.
-/

namespace AndInverter

inductive ParseErrorKind where
  | invalidToken
  | unsupportedFeature
  | inputOutput
  deriving DecidableEq

/-- The two kinds of line that hold a single literal. -/
inductive LiteralLine where
  | input
  | output
  deriving DecidableEq

def LiteralLine.text : LiteralLine → String
  | .input => "input"
  | .output => "output"

inductive ParseError where
  /-- A token is not a number below 2^64. -/
  | expectedNumber (token : String)
  /-- A variable is given by the literal of its complement. -/
  | oddLiteral (literal : Nat)
  /-- The file ends where a line or a byte has to follow. -/
  | endOfInput
  /-- A line that has to hold a literal is blank. -/
  | missingLiteral (line : LiteralLine)
  /-- A line that has to hold one literal goes on. -/
  | trailingToken (line : LiteralLine) (token : String)
  | shortHeader
  /-- The header does not begin with the name of the format. -/
  | unknownFormat
  | longHeader
  | latches
  /-- The header announces fewer variables than inputs and gates. -/
  | tooFewVariables (maxVariable inputs gates : Nat)
  /-- The literals of the announced variables do not fit into 64 bits. -/
  | tooManyVariables (maxVariable : Nat)
  | variableOutOfRange (name : Nat)
  | definedTwice (name : Nat)
  | undefinedLiteral (literal : Nat)
  | constantInput
  | constantGate
  | shortGate
  | trailingGateToken (token : String)
  /-- A gate can never be built from what is defined. -/
  | unresolvableGate (literal : Nat)
  /-- The literal of the first gate does not fit into 64 bits. -/
  | tooManyInputs
  /-- A delta takes more than ten bytes. -/
  | longDelta
  /-- The deltas of a gate lead below literal 0. -/
  | invalidDeltas (literal : Nat)
  | selfReference (literal : Nat)
  | invalidEncoding
  | missingFile
  /-- The name of the file does not tell the format. -/
  | unknownExtension
  deriving DecidableEq

namespace ParseError

def kind : ParseError → ParseErrorKind
  | .longHeader | .latches => .unsupportedFeature
  | .invalidEncoding | .missingFile | .unknownExtension => .inputOutput
  | _ => .invalidToken

/-- The wording of a cause, without its kind. -/
def detail : ParseError → String
  | .expectedNumber token => s!"{token} expected u64"
  | .oddLiteral literal => s!"expected literal to be even, got {literal}"
  | .endOfInput => "unexpected end of file"
  | .missingLiteral line => s!"expected {line.text} token, got nothing"
  | .trailingToken line token => s!"expected nothing after {line.text}, got {token}"
  | .shortHeader => "missing header tokens"
  | .unknownFormat => "expected aag (or at least aig)"
  | .longHeader => "header only supports M I L O A"
  | .latches => "latches (only combinational AIGs are supported)"
  | .tooFewVariables maxVariable inputs gates =>
      s!"maximum variable index {maxVariable} is too small for {inputs} inputs and {gates} and gates"
  | .tooManyVariables maxVariable => s!"maximum variable index {maxVariable} is too large"
  | .variableOutOfRange name => s!"variable {name} exceeds the maximum variable index"
  | .definedTwice name => s!"variable {name} is defined twice"
  | .undefinedLiteral literal => s!"literal {literal} is not defined"
  | .constantInput => "input cannot be the constant"
  | .constantGate => "and gate cannot be the constant"
  | .shortGate => "not enough and tokens"
  | .trailingGateToken token => s!"expected nothing after and tokens, got {token}"
  | .unresolvableGate literal =>
      s!"and gate {literal} depends on undefined literals (or on itself)"
  | .tooManyInputs => "too many inputs"
  | .longDelta => "delta does not fit on 64 bits"
  | .invalidDeltas literal => s!"invalid deltas for and gate {literal}"
  | .selfReference literal => s!"and gate {literal} cannot use itself"
  | .invalidEncoding => "stream did not contain valid UTF-8"
  | .missingFile => "No such file or directory (os error 2)"
  | .unknownExtension => "invalid extension, expected .aag or .aig"

def message (cause : ParseError) : String :=
  match cause.kind with
  | .invalidToken => s!"invalid token: {cause.detail}"
  | .unsupportedFeature => s!"unsupported feature: {cause.detail}"
  | .inputOutput => s!"io error: {cause.detail}"

end ParseError

end AndInverter
