import RiscHart.Word

/-!
# Little-endian numbers

A number is stored as bytes with the lowest byte first. `ofBytes` reads such a list and `toBytes`
writes the lowest bytes of a number.
-/

namespace RiscHart.LittleEndian

def ofBytes : List Byte → Nat
  | [] => 0
  | b :: bs => b.toNat + 256 * ofBytes bs

/-- The lowest `count` bytes of `n`, lowest first. -/
def toBytes : (count n : Nat) → List Byte
  | 0, _ => []
  | count + 1, n => BitVec.ofNat 8 n :: toBytes count (n / 256)

@[simp] theorem length_toBytes (count n : Nat) : (toBytes count n).length = count := by
  induction count generalizing n with
  | zero => rfl
  | succ count ih => simp [toBytes, ih]

end RiscHart.LittleEndian
