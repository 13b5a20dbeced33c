import AndInverter.Word

/-!
# Lines, tokens and numbers of a circuit file

A file is read line by line from its bytes.  A line ends with a line feed,
has to be valid UTF-8, and consists of tokens between blanks.  A number is a
token of decimal digits, after at most one plus sign, below 2^64.
-/

namespace AndInverter

namespace Aiger

/-- The characters that separate tokens: those with the Unicode property
`White_Space`. -/
def blanks : List Nat :=
  [0x09, 0x0A, 0x0B, 0x0C, 0x0D, 0x20, 0x85, 0xA0, 0x1680, 0x2000, 0x2001, 0x2002,
    0x2003, 0x2004, 0x2005, 0x2006, 0x2007, 0x2008, 0x2009, 0x200A, 0x2028, 0x2029,
    0x202F, 0x205F, 0x3000]

def isBlank (character : Char) : Bool :=
  blanks.contains character.toNat

/-- The first line of some bytes, line feed included, and what follows it. -/
def splitLine : List UInt8 → List UInt8 × List UInt8
  | [] => ([], [])
  | byte :: bytes =>
    if byte = 0x0A then ([byte], bytes)
    else
      let (line, rest) := splitLine bytes
      (byte :: line, rest)

/-- The pieces between blanks, empty ones included. -/
def pieces : List Char → List (List Char)
  | [] => [[]]
  | character :: characters =>
    if isBlank character then [] :: pieces characters
    else
      match pieces characters with
      | [] => [[character]]
      | piece :: rest => (character :: piece) :: rest

def tokens (line : List Char) : List String :=
  ((pieces line).filter fun piece => !piece.isEmpty).map String.ofList

def decodeLine (line : List UInt8) : Except Failure (List Char) :=
  match String.fromUTF8? ⟨line.toArray⟩ with
  | some text => .ok text.toList
  | none => .error (.parse .invalidEncoding)

def readTokens (content : List UInt8) : Except Failure (List String × List UInt8) :=
  match content with
  | [] => .error (.parse .endOfInput)
  | _ :: _ => do
    let (line, rest) := splitLine content
    let characters ← decodeLine line
    return (tokens characters, rest)

def readLines {Entry : Type} (read : List String → Except Failure Entry) :
    (count : Nat) → List UInt8 → Except Failure (List Entry × List UInt8)
  | 0, content => .ok ([], content)
  | count + 1, content => do
    let (line, content) ← readTokens content
    let entry ← read line
    let (entries, content) ← readLines read count content
    return (entry :: entries, content)

def digit? (character : Char) : Option Nat :=
  if '0' ≤ character ∧ character ≤ '9' then some (character.toNat - '0'.toNat) else none

/-- The value of decimal digits that follow a given value. -/
def decimal? : (value : Nat) → List Char → Option Nat
  | value, [] => some value
  | value, character :: characters => do
    let digit ← digit? character
    decimal? (10 * value + digit) characters

def digits? : List Char → Option Nat
  | [] => none
  | characters => decimal? 0 characters

def number? (token : String) : Option Nat :=
  let value := match token.toList with
    | '+' :: characters => digits? characters
    | characters => digits? characters
  value.filter (· < Word.limit)

def readNumber (token : String) : Except Failure Nat :=
  match number? token with
  | some number => .ok number
  | none => .error (.parse (.expectedNumber token))

def checkEven (literal : Nat) : Except Failure Unit :=
  if literal % 2 = 1 then .error (.parse (.oddLiteral literal)) else .ok ()

def readLiteral (line : LiteralLine) : List String → Except Failure Nat
  | [] => .error (.parse (.missingLiteral line))
  | [token] => readNumber token
  | _ :: token :: _ => .error (.parse (.trailingToken line token))

end Aiger

end AndInverter
