import RiscHart.Word

/-!
# Immediates

An instruction format keeps its immediate in one or more fragments. Every immediate is signed, and
branch and jump offsets are even, so their bit 0 is never stored. The functions of the first group
turn a stored immediate into the word it stands for. The assemblers of the second group take the
fragments as whole words, of which only the low bits count, so they are defined for all arguments.
-/

namespace RiscHart.Imm

/-- The value of a twelve-bit immediate, used by the I and S formats. -/
def short (imm : BitVec 12) : Word := imm.signExtend 32

/-- The branch offset whose bits 12 to 1 are `half`. -/
def branch (half : BitVec 12) : Word := (half ++ 0#1).signExtend 32

/-- The jump offset whose bits 20 to 1 are `half`. -/
def jump (half : BitVec 20) : Word := (half ++ 0#1).signExtend 32

/-- The value of an upper immediate, which fills bits 31 to 12. -/
def upper (imm : BitVec 20) : Word := imm ++ 0#12

def shortBits : Nat := 12

def branchBits : Nat := 13

def upperBits : Nat := 20

def upperShift : Nat := 12

def jumpBits : Nat := 21

def assembleS (imm11_5 imm4_0 : Word) : Word := short (imm11_5.setWidth 7 ++ imm4_0.setWidth 5)

def assembleB (imm12 imm11 imm10_5 imm4_1 : Word) : Word :=
  branch (imm12.setWidth 1 ++ imm11.setWidth 1 ++ imm10_5.setWidth 6 ++ imm4_1.setWidth 4)

def assembleJ (imm20 imm19_12 imm11 imm10_1 : Word) : Word :=
  jump (imm20.setWidth 1 ++ imm19_12.setWidth 8 ++ imm11.setWidth 1 ++ imm10_1.setWidth 10)

def assembleU (imm31_12 : Word) : Word := upper (imm31_12.setWidth 20)

end RiscHart.Imm
