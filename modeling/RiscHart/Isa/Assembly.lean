import RiscHart.Isa.Instr
import RiscHart.Numeral

/-!
# Assembly text

An instruction is written as its mnemonic, a blank and its operands, with registers under their ABI
names. Offsets and immediates are signed decimal numbers, branch and jump offsets counting from the
instruction itself; upper immediates are hexadecimal. The text determines the instruction.
-/

namespace RiscHart

namespace Instr

/-- A memory operand: an offset and, in parentheses, the register it is added to. -/
def address (base : Reg) (offset : BitVec 12) : String :=
  Numeral.signed (Imm.short offset).toInt ++ "(" ++ base.abiName ++ ")"

def operands : Instr → String
  | alu _ rd rs1 rs2 => rd.abiName ++ ", " ++ rs1.abiName ++ ", " ++ rs2.abiName
  | imm _ rd rs1 value =>
    rd.abiName ++ ", " ++ rs1.abiName ++ ", " ++ Numeral.signed (Imm.short value).toInt
  | shift _ rd rs1 amount =>
    rd.abiName ++ ", " ++ rs1.abiName ++ ", " ++ Numeral.decimal amount.toNat
  | load _ rd base offset => rd.abiName ++ ", " ++ address base offset
  | store _ source base offset => source.abiName ++ ", " ++ address base offset
  | branch _ rs1 rs2 half =>
    rs1.abiName ++ ", " ++ rs2.abiName ++ ", " ++ Numeral.signed (Imm.branch half).toInt
  | jal rd half => rd.abiName ++ ", " ++ Numeral.signed (Imm.jump half).toInt
  | jalr rd base offset => rd.abiName ++ ", " ++ address base offset
  | lui rd value => rd.abiName ++ ", " ++ Numeral.hex value.toNat
  | auipc rd value => rd.abiName ++ ", " ++ Numeral.hex value.toNat

def text (i : Instr) : String := i.mnemonic ++ " " ++ i.operands

end Instr

/-- The text of a word; a word that is no instruction is written `unknown`. -/
def disassemble (w : Word) : String :=
  match decode w with
  | .ok i => i.text
  | .error _ => "unknown"

end RiscHart
