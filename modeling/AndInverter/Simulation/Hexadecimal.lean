/-!
# Numbers in hexadecimal

The other direction of writing a table: the number that hexadecimal digits
stand for, the highest digit first.
-/

namespace AndInverter

def hexDigit? (character : Char) : Option Nat :=
  if '0' ≤ character ∧ character ≤ '9' then some (character.toNat - '0'.toNat)
  else if 'a' ≤ character ∧ character ≤ 'f' then some (character.toNat - 'a'.toNat + 10)
  else none

/-- The value of hexadecimal digits that follow a given value, none if one of
the characters is no digit. -/
def hexadecimal? : (value : Nat) → List Char → Option Nat
  | value, [] => some value
  | value, character :: characters => do
    let digit ← hexDigit? character
    hexadecimal? (16 * value + digit) characters

end AndInverter
