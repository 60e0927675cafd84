import RiscHart.Isa.Operation
import RiscHart.Memory.LittleEndian
import RiscHart.Numeral

/-!
# Memory

A memory is a run of bytes of fixed capacity, addressed from zero. An access to `n` bytes at `a`
succeeds exactly when `a + n` is at most the capacity, counted without wrapping; there is no demand
on alignment. A failed access changes nothing. Halves and words are little-endian.
-/

namespace RiscHart

inductive MemoryError where
  /-- The `width` bytes at `addr` do not all lie below `capacity`. -/
  | outOfBounds (addr : Word) (width capacity : Nat)
  deriving DecidableEq

def MemoryError.message : MemoryError → String
  | outOfBounds addr width capacity =>
    "out-of-bounds " ++ Numeral.decimal width ++ "-byte access at " ++ Numeral.word addr ++
      " (capacity " ++ Numeral.hex capacity ++ ")"

structure Memory where
  bytes : Array Byte
  deriving DecidableEq

/-- The bytes with those from `offset` on replaced; what would fall behind the end is dropped. -/
def overwrite (bytes : Array Byte) (offset : Nat) : List Byte → Array Byte
  | [] => bytes
  | b :: bs => overwrite (bytes.setIfInBounds offset b) (offset + 1) bs

@[simp] theorem size_overwrite (bytes : Array Byte) (offset : Nat) (data : List Byte) :
    (overwrite bytes offset data).size = bytes.size := by
  induction data generalizing bytes offset with
  | nil => rfl
  | cons b bs ih => simp [overwrite, ih]

theorem getElem?_overwrite (bytes : Array Byte) (offset i : Nat) (data : List Byte)
    (hi : i < bytes.size) :
    (overwrite bytes offset data)[i]? =
      if offset ≤ i ∧ i < offset + data.length then data[i - offset]? else bytes[i]? := by
  induction data generalizing bytes offset with
  | nil =>
    rw [if_neg (by simp only [List.length_nil]; omega)]
    rfl
  | cons b bs ih =>
    rw [overwrite, ih _ _ (by simpa using hi), Array.getElem?_setIfInBounds, List.length_cons]
    rcases Nat.lt_trichotomy i offset with h | h | h
    · simp [show ¬ offset + 1 ≤ i by omega, show ¬ offset ≤ i by omega, show offset ≠ i by omega]
    · subst h
      simp [show ¬ i + 1 ≤ i by omega, hi]
    · have hsub : i - offset = i - (offset + 1) + 1 := by omega
      simp only [hsub, List.getElem?_cons_succ, show offset ≠ i by omega, if_false]
      congr 1
      simp only [eq_iff_iff]
      omega

namespace Memory

def zeros (capacity : Nat) : Memory := ⟨Array.replicate capacity 0⟩

def capacity (m : Memory) : Nat := m.bytes.size

def read? (m : Memory) (offset count : Nat) : Option (List Byte) :=
  if offset + count ≤ m.capacity then some (m.bytes.extract offset (offset + count)).toList
  else none

def write? (m : Memory) (offset : Nat) (data : List Byte) : Option Memory :=
  if offset + data.length ≤ m.capacity then some ⟨overwrite m.bytes offset data⟩ else none

def readBytes (m : Memory) (addr : Word) (count : Nat) : Except MemoryError (List Byte) :=
  match m.read? addr.toNat count with
  | some bs => .ok bs
  | none => .error (.outOfBounds addr count m.capacity)

def writeBytes (m : Memory) (addr : Word) (data : List Byte) : Except MemoryError Memory :=
  match m.write? addr.toNat data with
  | some m' => .ok m'
  | none => .error (.outOfBounds addr data.length m.capacity)

def load (m : Memory) (w : Width) (addr : Word) : Except MemoryError (BitVec w.bits) :=
  (m.readBytes addr w.bytes).map fun bs => BitVec.ofNat w.bits (LittleEndian.ofBytes bs)

def store (m : Memory) (w : Width) (addr : Word) (v : BitVec w.bits) :
    Except MemoryError Memory :=
  m.writeBytes addr (LittleEndian.toBytes w.bytes v.toNat)

/-- A load that fills a whole word, extending what it read as the operation says. -/
def loadWord (m : Memory) (f : LoadOp) (addr : Word) : Except MemoryError Word :=
  (m.load f.width addr).map f.extend

/-- A store of the low bytes of a word. -/
def storeWord (m : Memory) (w : Width) (addr v : Word) : Except MemoryError Memory :=
  m.store w addr (v.setWidth w.bits)

end Memory

end RiscHart
