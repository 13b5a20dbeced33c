import AndInverter.Error

/-!
# Truth tables

The truth table of a function of some variables has one bit for each
assignment: bit `i` is the value where variable `k` is bit `k` of `i`.  The
bits are kept in words of 64, the lowest first.  Fewer than six variables leave
bits of the only word unused; a mask keeps these at zero.  A table is written in
hexadecimal with the highest bit first.
-/

namespace AndInverter

structure TruthTable where
  arity : Nat
  words : List (BitVec 64)
  deriving DecidableEq

namespace TruthTable

def wordCount (arity : Nat) : Nat :=
  if arity ≤ 6 then 1 else 1 <<< (arity - 6)

/-- The bits that a table uses in each of its words. -/
def mask (arity : Nat) : BitVec 64 :=
  if 6 ≤ arity then BitVec.allOnes 64 else (1#64 <<< (1 <<< arity)) - 1#64

def variableWords : List (BitVec 64) :=
  [0xaaaaaaaaaaaaaaaa#64, 0xcccccccccccccccc#64, 0xf0f0f0f0f0f0f0f0#64,
    0xff00ff00ff00ff00#64, 0xffff0000ffff0000#64, 0xffffffff00000000#64]

/-- One word of the table of a variable.  From the seventh variable on, whole
words alternate. -/
def projectionWord (arity index position : Nat) : BitVec 64 :=
  match variableWords[index]? with
  | some word => word &&& mask arity
  | none => if position.testBit (index - 6) then BitVec.allOnes 64 else 0

/-- The largest number of variables for which the words of a table fill less
than 2^63 bytes, the most that can be addressed. -/
def maxArity : Nat :=
  65

def projection (arity index : Nat) : Except Failure TruthTable :=
  if index < arity ∧ arity ≤ maxArity then
    .ok
      { arity := arity
        words := (List.range (wordCount arity)).map (projectionWord arity index) }
  else
    .error .assertion

/-- The table whose words are the given ones where it uses them. -/
def ofWords (arity : Nat) (words : List (BitVec 64)) : TruthTable :=
  { arity := arity
    words := words.map (· &&& mask arity) }

def bit (table : TruthTable) (index : Nat) : Except Failure Bool :=
  match table.words[index / 64]? with
  | some word => .ok (word.getLsbD (index % 64))
  | none => .error .assertion

def countOnes (table : TruthTable) : Nat :=
  table.words.foldr (fun word count => word.cpop.toNat + count) 0

/-- The hexadecimal digits of a word, at least `width` of them. -/
def digits (width : Nat) (word : BitVec 64) : List Char :=
  (Nat.toDigits 16 word.toNat).leftpad width '0'

def text (table : TruthTable) : String :=
  if table.arity ≤ 6 then
    String.ofList (digits (max ((1 <<< table.arity) / 4) 1) (table.words.headD 0))
  else
    String.ofList (table.words.reverse.flatMap (digits 16))

end TruthTable

end AndInverter
