import RiscHart.Alu
import RiscHart.Config
import RiscHart.Event

/-!
# Harts and what instructions do to them

A hart is a register file, a program counter and a memory. `Instr.apply` is the whole meaning of an
instruction: the hart after it, or the memory error that kept it from taking effect. An instruction
reads its operands before it writes anything.
-/

namespace RiscHart

structure Hart where
  registers : Registers
  pc : Word
  memory : Memory
  deriving DecidableEq

namespace Hart

/-- A hart with cleared registers, the program counter at zero and a cleared memory. -/
def clear (zero : ZeroPolicy) (capacity : Nat) : Hart :=
  ⟨Registers.clear zero, 0, Memory.zeros capacity⟩

def ofConfig (c : Config) : Hart := clear c.zero c.memorySize

def read (h : Hart) (r : Reg) : Word := h.registers.read r

def write (h : Hart) (r : Reg) (v : Word) : Hart := { h with registers := h.registers.write r v }

/-- The address behind the present instruction. -/
def following (h : Hart) : Word := h.pc + BitVec.ofNat 32 instructionBytes

def jump (h : Hart) (target : Word) : Hart := { h with pc := target }

def advance (h : Hart) : Hart := h.jump h.following

def dump (h : Hart) : List Event := .programCounter h.pc :: h.registers.dump

end Hart

namespace Instr

def apply (h : Hart) : Instr → Except MemoryError Hart
  | alu f rd rs1 rs2 => .ok (h.write rd (f.eval (h.read rs1) (h.read rs2))).advance
  | imm f rd rs1 value => .ok (h.write rd (f.alu.eval (h.read rs1) (Imm.short value))).advance
  | shift f rd rs1 amount =>
    .ok (h.write rd (f.alu.eval (h.read rs1) (amount.setWidth 32))).advance
  | load f rd base offset =>
    (h.memory.loadWord f (h.read base + Imm.short offset)).map fun v => (h.write rd v).advance
  | store width source base offset =>
    (h.memory.storeWord width (h.read base + Imm.short offset) (h.read source)).map fun m =>
      { h with memory := m }.advance
  | branch cond rs1 rs2 half =>
    if cond.holds (h.read rs1) (h.read rs2) then .ok (h.jump (h.pc + Imm.branch half))
    else .ok h.advance
  | jal rd half => .ok ((h.write rd h.following).jump (h.pc + Imm.jump half))
  | jalr rd base offset =>
    .ok ((h.write rd h.following).jump ((h.read base + Imm.short offset) &&& ~~~1))
  | lui rd value => .ok (h.write rd (Imm.upper value)).advance
  | auipc rd value => .ok (h.write rd (h.pc + Imm.upper value)).advance

end Instr

end RiscHart
