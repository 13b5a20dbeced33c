import AndInverter.Error

/-!
# Words

Literals of circuit files are numbers of 64 bits.  They are kept as natural
numbers; the operations here say what happens at either end of the range.
-/

namespace AndInverter

namespace Word

/-- The number of words of 64 bits: all of them are below. -/
def limit : Nat :=
  1 <<< 64

/-- The sum of two words, which has to be a word. -/
def sum (left right : Nat) : Except Failure Nat :=
  if left + right < limit then .ok (left + right) else .error .assertion

def difference? (left right : Nat) : Option Nat :=
  if right ≤ left then some (left - right) else none

end Word

end AndInverter
