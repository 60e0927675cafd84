import RiscHart.Isa.Operation

/-!
# Operation codes

The bit patterns that stand for operations in an instruction word: the seven-bit major opcode, and
within it the minor codes `funct3` and `funct7`. Each code is given once, as a function of what it
stands for; reading a code looks it up among all candidates. No two candidates share a code, so a
code is read as exactly the one that has it.
-/

namespace RiscHart

/-- The nine major opcodes. -/
inductive Opcode where
  | load
  | opImm
  | auipc
  | store
  | op
  | lui
  | branch
  | jalr
  | jal
  deriving DecidableEq

namespace Opcode

def all : List Opcode := [load, opImm, auipc, store, op, lui, branch, jalr, jal]

def code : Opcode → BitVec 7
  | load => 0b0000011
  | opImm => 0b0010011
  | auipc => 0b0010111
  | store => 0b0100011
  | op => 0b0110011
  | lui => 0b0110111
  | branch => 0b1100011
  | jalr => 0b1100111
  | jal => 0b1101111

def ofCode? (c : BitVec 7) : Option Opcode := all.find? (·.code = c)

theorem ofCode?_eq_some_iff {c : BitVec 7} {o : Opcode} : ofCode? c = some o ↔ o.code = c := by
  constructor
  · intro h
    simpa using List.find?_some h
  · rintro rfl
    cases o <;> rfl

end Opcode

namespace AluOp

def funct3 : AluOp → BitVec 3
  | add | sub => 0
  | sll => 1
  | slt => 2
  | sltu => 3
  | xor => 4
  | srl | sra => 5
  | or => 6
  | and => 7

/-- Bit 5 tells subtraction from addition and the arithmetic shift from the logical one. -/
def funct7 : AluOp → BitVec 7
  | sub | sra => 0b0100000
  | _ => 0

def ofCodes? (c3 : BitVec 3) (c7 : BitVec 7) : Option AluOp :=
  all.find? fun f => f.funct3 = c3 ∧ f.funct7 = c7

theorem ofCodes?_eq_some_iff {c3 : BitVec 3} {c7 : BitVec 7} {f : AluOp} :
    ofCodes? c3 c7 = some f ↔ f.funct3 = c3 ∧ f.funct7 = c7 := by
  constructor
  · intro h
    simpa using List.find?_some h
  · rintro ⟨rfl, rfl⟩
    cases f <;> rfl

end AluOp

def ImmOp.ofFunct3? (c : BitVec 3) : Option ImmOp := ImmOp.all.find? (·.alu.funct3 = c)

theorem ImmOp.ofFunct3?_eq_some_iff {c : BitVec 3} {f : ImmOp} :
    ofFunct3? c = some f ↔ f.alu.funct3 = c := by
  constructor
  · intro h
    simpa using List.find?_some h
  · rintro rfl
    cases f <;> rfl

/-- The upper seven bits of a shift's immediate take the place of `funct7`. -/
def ShiftOp.ofCodes? (c3 : BitVec 3) (c7 : BitVec 7) : Option ShiftOp :=
  ShiftOp.all.find? fun f => f.alu.funct3 = c3 ∧ f.alu.funct7 = c7

theorem ShiftOp.ofCodes?_eq_some_iff {c3 : BitVec 3} {c7 : BitVec 7} {f : ShiftOp} :
    ofCodes? c3 c7 = some f ↔ f.alu.funct3 = c3 ∧ f.alu.funct7 = c7 := by
  constructor
  · intro h
    simpa using List.find?_some h
  · rintro ⟨rfl, rfl⟩
    cases f <;> rfl

namespace LoadOp

def funct3 : LoadOp → BitVec 3
  | lb => 0
  | lh => 1
  | lw => 2
  | lbu => 4
  | lhu => 5

def ofFunct3? (c : BitVec 3) : Option LoadOp := all.find? (·.funct3 = c)

theorem ofFunct3?_eq_some_iff {c : BitVec 3} {f : LoadOp} :
    ofFunct3? c = some f ↔ f.funct3 = c := by
  constructor
  · intro h
    simpa using List.find?_some h
  · rintro rfl
    cases f <;> rfl

end LoadOp

namespace Width

def funct3 : Width → BitVec 3
  | byte => 0
  | half => 1
  | word => 2

def ofFunct3? (c : BitVec 3) : Option Width := all.find? (·.funct3 = c)

theorem ofFunct3?_eq_some_iff {c : BitVec 3} {w : Width} :
    ofFunct3? c = some w ↔ w.funct3 = c := by
  constructor
  · intro h
    simpa using List.find?_some h
  · rintro rfl
    cases w <;> rfl

end Width

namespace Condition

def funct3 : Condition → BitVec 3
  | eq => 0
  | ne => 1
  | lt => 4
  | ge => 5
  | ltu => 6
  | geu => 7

def ofFunct3? (c : BitVec 3) : Option Condition := all.find? (·.funct3 = c)

theorem ofFunct3?_eq_some_iff {c : BitVec 3} {k : Condition} :
    ofFunct3? c = some k ↔ k.funct3 = c := by
  constructor
  · intro h
    simpa using List.find?_some h
  · rintro rfl
    cases k <;> rfl

end Condition

/-- The only minor code of the jump to a register. -/
def jalrFunct3 : BitVec 3 := 0

end RiscHart
