import RiscHart.Word

/-!
# The integer registers and their names

There are 32 integer registers, `x0` to `x31`. The application binary interface gives each of them
a name of its own, which assembly text uses, and gives a few of them a fixed role.
-/

namespace RiscHart

/-- One of the registers `x0` to `x31`, as the five bits that select it. -/
abbrev Reg := BitVec 5

namespace Reg

def count : Nat := 32

def zero : Reg := 0

def returnAddress : Reg := 1

def stackPointer : Reg := 2

def argument0 : Reg := 10

def argument1 : Reg := 11

def abiNames : Vector String count :=
  #v["zero", "ra", "sp", "gp", "tp", "t0", "t1", "t2", "s0", "s1", "a0", "a1", "a2", "a3", "a4",
    "a5", "a6", "a7", "s2", "s3", "s4", "s5", "s6", "s7", "s8", "s9", "s10", "s11", "t3", "t4",
    "t5", "t6"]

def abiName (r : Reg) : String := abiNames.get r.toFin

def ofNat? (n : Nat) : Option Reg := if n < count then some (BitVec.ofNat 5 n) else none

theorem toNat_ofNat {n : Nat} (hn : n < count) : (BitVec.ofNat 5 n).toNat = n :=
  (BitVec.toNat_ofNat n 5).trans (Nat.mod_eq_of_lt hn)

theorem ofNat_toNat (r : Reg) : BitVec.ofNat 5 r.toNat = r := by
  rw [BitVec.ofNat_toNat, BitVec.setWidth_eq]

theorem ofNat?_of_lt {n : Nat} (hn : n < count) : ofNat? n = some (.ofNat 5 n) := if_pos hn

theorem ofNat?_of_le {n : Nat} (hn : count ≤ n) : ofNat? n = none := if_neg (Nat.not_lt.2 hn)

theorem ofNat?_toNat (r : Reg) : ofNat? r.toNat = some r := by
  rw [ofNat?_of_lt r.isLt, ofNat_toNat]

/-- The name of register number `n`; a number that selects no register is written `x??`. -/
def nameOfNat (n : Nat) : String := (ofNat? n).elim "x??" abiName

end Reg

end RiscHart
