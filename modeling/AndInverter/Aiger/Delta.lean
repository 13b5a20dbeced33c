import AndInverter.Word

/-!
# Delta coding

Binary files write a number in groups of seven bits, the lowest group first,
with the high bit set on every byte but the last.  Reading keeps the lowest
64 bits: of a tenth group only one bit counts.
-/

namespace AndInverter

namespace Aiger

def encodeDelta (value : Nat) : List UInt8 :=
  if value < 128 then [UInt8.ofNat value]
  else UInt8.ofNat (value % 128 + 128) :: encodeDelta (value / 128)

/-- Reads the groups from the given one on, on top of the value of the groups
before. -/
def decodeGroups : (group value : Nat) → List UInt8 → Except Failure (Nat × List UInt8)
  | _, _, [] => .error (.parse .endOfInput)
  | group, value, byte :: bytes =>
    if 10 ≤ group then
      .error (.parse .longDelta)
    else
      let value := value + ((byte.toNat % 128) <<< (7 * group)) % Word.limit
      if byte.toNat < 128 then .ok (value, bytes)
      else decodeGroups (group + 1) value bytes

def decodeDelta (bytes : List UInt8) : Except Failure (Nat × List UInt8) :=
  decodeGroups 0 0 bytes

end Aiger

end AndInverter
