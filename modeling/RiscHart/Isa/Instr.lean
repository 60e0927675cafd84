import RiscHart.Isa.Shape

/-!
# Instructions

An `Instr` is an operation together with operands that fit it, so every value of the type is a legal
instruction and nothing else can be written down. `Instr.shape` gives the fields of its encoding and
`Instr.encode` the word. `Instr.ofShape?` reads an instruction back from the fields; it fails
exactly when the codes among them are unassigned.
-/

namespace RiscHart

/-- A legal instruction. Branch and jump offsets are kept halved, since their bit 0 is zero. -/
inductive Instr where
  | alu (f : AluOp) (rd rs1 rs2 : Reg)
  | imm (f : ImmOp) (rd rs1 : Reg) (value : BitVec 12)
  | shift (f : ShiftOp) (rd rs1 : Reg) (amount : BitVec 5)
  | load (f : LoadOp) (rd base : Reg) (offset : BitVec 12)
  | store (width : Width) (source base : Reg) (offset : BitVec 12)
  | branch (cond : Condition) (rs1 rs2 : Reg) (half : BitVec 12)
  | jal (rd : Reg) (half : BitVec 20)
  | jalr (rd base : Reg) (offset : BitVec 12)
  | lui (rd : Reg) (value : BitVec 20)
  | auipc (rd : Reg) (value : BitVec 20)
  deriving DecidableEq

namespace Instr

def op : Instr → Op
  | alu f _ _ _ => .alu f
  | imm f _ _ _ => .imm f
  | shift f _ _ _ => .shift f
  | load f _ _ _ => .load f
  | store width _ _ _ => .store width
  | branch cond _ _ _ => .branch cond
  | jal _ _ => .jal
  | jalr _ _ _ => .jalr
  | lui _ _ => .lui
  | auipc _ _ => .auipc

def shape : Instr → Shape
  | alu f rd rs1 rs2 => .r ⟨f.funct7, rs2, rs1, f.funct3, rd, Opcode.op.code⟩
  | imm f rd rs1 value => .i ⟨value, rs1, f.alu.funct3, rd, Opcode.opImm.code⟩
  | shift f rd rs1 amount =>
    .i ⟨f.alu.funct7 ++ amount, rs1, f.alu.funct3, rd, Opcode.opImm.code⟩
  | load f rd base offset => .i ⟨offset, base, f.funct3, rd, Opcode.load.code⟩
  | store width source base offset =>
    .s ⟨offset.extractLsb' 5 7, source, base, width.funct3, offset.extractLsb' 0 5,
      Opcode.store.code⟩
  | branch cond rs1 rs2 half =>
    .b ⟨half.extractLsb' 11 1, half.extractLsb' 4 6, rs2, rs1, cond.funct3, half.extractLsb' 0 4,
      half.extractLsb' 10 1, Opcode.branch.code⟩
  | jal rd half =>
    .j ⟨half.extractLsb' 19 1, half.extractLsb' 0 10, half.extractLsb' 10 1,
      half.extractLsb' 11 8, rd, Opcode.jal.code⟩
  | jalr rd base offset => .i ⟨offset, base, jalrFunct3, rd, Opcode.jalr.code⟩
  | lui rd value => .u ⟨value, rd, Opcode.lui.code⟩
  | auipc rd value => .u ⟨value, rd, Opcode.auipc.code⟩

def encode (i : Instr) : Word := i.shape.word

def mnemonic (i : Instr) : String := i.op.mnemonic

def ofRFields? (f : RFields) : Option Instr :=
  match Opcode.ofCode? f.opcode with
  | some .op => (AluOp.ofCodes? f.funct3 f.funct7).map (alu · f.rd f.rs1 f.rs2)
  | _ => none

/-- With the opcode of the immediate operations, `funct3` decides between the shifts and the rest,
and only the shifts look at the upper bits of the immediate. -/
def ofIFields? (f : IFields) : Option Instr :=
  match Opcode.ofCode? f.opcode with
  | some .opImm =>
    match ImmOp.ofFunct3? f.funct3 with
    | some g => some (imm g f.rd f.rs1 f.imm)
    | none => (ShiftOp.ofCodes? f.funct3 f.funct7).map (shift · f.rd f.rs1 f.shamt)
  | some .load => (LoadOp.ofFunct3? f.funct3).map (load · f.rd f.rs1 f.imm)
  | some .jalr => if f.funct3 = jalrFunct3 then some (jalr f.rd f.rs1 f.imm) else none
  | _ => none

def ofSFields? (f : SFields) : Option Instr :=
  match Opcode.ofCode? f.opcode with
  | some .store => (Width.ofFunct3? f.funct3).map (store · f.rs2 f.rs1 f.imm)
  | _ => none

def ofBFields? (f : BFields) : Option Instr :=
  match Opcode.ofCode? f.opcode with
  | some .branch => (Condition.ofFunct3? f.funct3).map (branch · f.rs1 f.rs2 f.half)
  | _ => none

def ofUFields? (f : UFields) : Option Instr :=
  match Opcode.ofCode? f.opcode with
  | some .lui => some (lui f.rd f.imm)
  | some .auipc => some (auipc f.rd f.imm)
  | _ => none

def ofJFields? (f : JFields) : Option Instr :=
  match Opcode.ofCode? f.opcode with
  | some .jal => some (jal f.rd f.half)
  | _ => none

def ofShape? : Shape → Option Instr
  | .r f => ofRFields? f
  | .i f => ofIFields? f
  | .s f => ofSFields? f
  | .b f => ofBFields? f
  | .u f => ofUFields? f
  | .j f => ofJFields? f

end Instr

/-- The instruction a word stands for. -/
def decode (w : Word) : Except DecodeError Instr :=
  match Shape.ofWord w with
  | .error e => .error e
  | .ok s =>
    match Instr.ofShape? s with
    | some i => .ok i
    | none => .error (.illegal w)

end RiscHart
