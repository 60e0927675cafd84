import RiscHart.Word

/-!
# Operations and their mnemonics

The 37 operations of the base integer instruction set, without their operands: ten on two
registers, nine of those with an immediate in place of the second register (three of them shifts),
five loads, three stores, six branches, and four that stand alone. Every operation has its own
mnemonic.
-/

namespace RiscHart

/-- An operation of the arithmetic and logic unit on two words. -/
inductive AluOp where
  | add
  | sub
  | sll
  | slt
  | sltu
  | xor
  | srl
  | sra
  | or
  | and
  deriving DecidableEq

namespace AluOp

def all : List AluOp := [add, sub, sll, slt, sltu, xor, srl, sra, or, and]

def mnemonic : AluOp → String
  | add => "add"
  | sub => "sub"
  | sll => "sll"
  | slt => "slt"
  | sltu => "sltu"
  | xor => "xor"
  | srl => "srl"
  | sra => "sra"
  | or => "or"
  | and => "and"

/-- The mnemonic of the form with an immediate. Subtraction has no such form and keeps its name. -/
def immediateMnemonic : AluOp → String
  | add => "addi"
  | sub => "sub"
  | sll => "slli"
  | slt => "slti"
  | sltu => "sltiu"
  | xor => "xori"
  | srl => "srli"
  | sra => "srai"
  | or => "ori"
  | and => "andi"

end AluOp

/-- The operations that take a full twelve-bit immediate. -/
inductive ImmOp where
  | add
  | slt
  | sltu
  | xor
  | or
  | and
  deriving DecidableEq

namespace ImmOp

def all : List ImmOp := [add, slt, sltu, xor, or, and]

def alu : ImmOp → AluOp
  | add => .add
  | slt => .slt
  | sltu => .sltu
  | xor => .xor
  | or => .or
  | and => .and

end ImmOp

/-- The shifts, whose immediate is a five-bit amount. -/
inductive ShiftOp where
  | sll
  | srl
  | sra
  deriving DecidableEq

namespace ShiftOp

def all : List ShiftOp := [sll, srl, sra]

def alu : ShiftOp → AluOp
  | sll => .sll
  | srl => .srl
  | sra => .sra

end ShiftOp

/-- The comparison a conditional branch makes. -/
inductive Condition where
  | eq
  | ne
  | lt
  | ge
  | ltu
  | geu
  deriving DecidableEq

namespace Condition

def all : List Condition := [eq, ne, lt, ge, ltu, geu]

def mnemonic : Condition → String
  | eq => "beq"
  | ne => "bne"
  | lt => "blt"
  | ge => "bge"
  | ltu => "bltu"
  | geu => "bgeu"

end Condition

/-- How much a memory access moves. -/
inductive Width where
  | byte
  | half
  | word
  deriving DecidableEq

namespace Width

def all : List Width := [byte, half, word]

def bytes : Width → Nat
  | byte => 1
  | half => 2
  | word => 4

abbrev bits (w : Width) : Nat := 8 * w.bytes

def storeMnemonic : Width → String
  | byte => "sb"
  | half => "sh"
  | word => "sw"

end Width

/-- The five loads. A word fills a register, so only the narrower loads come in two kinds. -/
inductive LoadOp where
  | lb
  | lh
  | lw
  | lbu
  | lhu
  deriving DecidableEq

namespace LoadOp

def all : List LoadOp := [lb, lh, lw, lbu, lhu]

def width : LoadOp → Width
  | lb | lbu => .byte
  | lh | lhu => .half
  | lw => .word

def signed : LoadOp → Bool
  | lb | lh | lw => true
  | lbu | lhu => false

/-- The load of the given width and signedness; for a word the signedness makes no difference. -/
def of : Width → Bool → LoadOp
  | .byte, true => lb
  | .byte, false => lbu
  | .half, true => lh
  | .half, false => lhu
  | .word, _ => lw

/-- The word that a load makes of the bits it reads. -/
def extend (f : LoadOp) (x : BitVec f.width.bits) : Word :=
  if f.signed then x.signExtend 32 else x.setWidth 32

def mnemonic : LoadOp → String
  | lb => "lb"
  | lh => "lh"
  | lw => "lw"
  | lbu => "lbu"
  | lhu => "lhu"

end LoadOp

/-- One of the 37 operations. -/
inductive Op where
  | alu (f : AluOp)
  | imm (f : ImmOp)
  | shift (f : ShiftOp)
  | load (f : LoadOp)
  | store (width : Width)
  | branch (cond : Condition)
  | jal
  | jalr
  | lui
  | auipc
  deriving DecidableEq

def Op.mnemonic : Op → String
  | alu f => f.mnemonic
  | imm f => f.alu.immediateMnemonic
  | shift f => f.alu.immediateMnemonic
  | load f => f.mnemonic
  | store width => width.storeMnemonic
  | branch cond => cond.mnemonic
  | jal => "jal"
  | jalr => "jalr"
  | lui => "lui"
  | auipc => "auipc"

end RiscHart
