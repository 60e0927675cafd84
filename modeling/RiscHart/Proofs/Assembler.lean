import Mathlib.Algebra.Group.Int.Defs
import Mathlib.Algebra.Group.Nat.Defs
import RiscHart.Isa.Shape

/-!
# The assembler

A line is an operation with register numbers and immediates that need not fit. The assembler cuts
every operand down to its field and places the pieces by masks and shifts. What it builds is the
word of the fields of a format.
-/

namespace RiscHart

/-- An operation with operands that are plain numbers. Offsets and immediates are byte counts, and
the upper immediate is the number that goes into bits 31 to 12. -/
inductive Line where
  | alu (f : AluOp) (rd rs1 rs2 : Nat)
  | imm (f : ImmOp) (rd rs1 : Nat) (value : Int)
  | shift (f : ShiftOp) (rd rs1 amount : Nat)
  | load (f : LoadOp) (rd base : Nat) (offset : Int)
  | store (width : Width) (source base : Nat) (offset : Int)
  | branch (cond : Condition) (rs1 rs2 : Nat) (offset : Int)
  | jal (rd : Nat) (offset : Int)
  | jalr (rd base : Nat) (offset : Int)
  | lui (rd value : Nat)
  | auipc (rd value : Nat)
  deriving DecidableEq

/-- Whether a number has a two's-complement form of `width` bits. -/
def FitsSigned (width : Nat) (z : Int) : Prop := -2 ^ (width - 1) ≤ z ∧ z < 2 ^ (width - 1)

instance (width : Nat) (z : Int) : Decidable (FitsSigned width z) :=
  inferInstanceAs (Decidable (_ ∧ _))

/-! The assembler. -/

/-- The lowest `width` bits of `v`, moved up to bit `low`. -/
def place (v : Word) (width low : Nat) : Word := (v &&& lowMask width) <<< low

theorem getLsbD_place (v : Word) (width low i : Nat) :
    (place v width low).getLsbD i =
      (decide (i < 32) && decide (low ≤ i) && decide (i < low + width) && v.getLsbD (i - low)) := by
  simp only [place, BitVec.getLsbD_shiftLeft, BitVec.getLsbD_and, getLsbD_lowMask]
  grind

/-- The operands of a line as words, each of which counts only as far as its field goes. -/
structure Parts where
  opcode : Opcode
  rd : Word := 0
  funct3 : Word := 0
  rs1 : Word := 0
  rs2 : Word := 0
  funct7 : Word := 0
  imm : Word := 0

namespace Parts

def build (p : Parts) : Word :=
  let opcode := p.opcode.code.setWidth 32
  let rd := place p.rd 5 7
  let funct3 := place p.funct3 3 12
  let rs1 := place p.rs1 5 15
  let rs2 := place p.rs2 5 20
  match p.opcode with
  | .op => place p.funct7 7 25 ||| rs2 ||| rs1 ||| funct3 ||| rd ||| opcode
  | .opImm | .load | .jalr => place p.imm 12 20 ||| rs1 ||| funct3 ||| rd ||| opcode
  | .store =>
    place (p.imm >>> 5) 7 25 ||| rs2 ||| rs1 ||| funct3 ||| place p.imm 5 7 ||| opcode
  | .branch =>
    place (p.imm >>> 12) 1 31 ||| place (p.imm >>> 5) 6 25 ||| rs2 ||| rs1 ||| funct3 |||
      place (p.imm >>> 1) 4 8 ||| place (p.imm >>> 11) 1 7 ||| opcode
  | .lui | .auipc => place p.imm 20 12 ||| rd ||| opcode
  | .jal =>
    place (p.imm >>> 20) 1 31 ||| place (p.imm >>> 1) 10 21 ||| place (p.imm >>> 11) 1 20 |||
      place (p.imm >>> 12) 8 12 ||| rd ||| opcode

/-! Each layout is the fields of its format, one behind the other. -/

theorem build_r (f7 f3 rs1 rs2 rd : Word) (c : BitVec 7) :
    place f7 7 25 ||| place rs2 5 20 ||| place rs1 5 15 ||| place f3 3 12 ||| place rd 5 7 |||
        c.setWidth 32 =
      RFields.word ⟨f7.setWidth 7, rs2.setWidth 5, rs1.setWidth 5, f3.setWidth 3,
        rd.setWidth 5, c⟩ := by
  apply BitVec.eq_of_getLsbD_eq
  intro i hi
  unfold RFields.word
  change _ = BitVec.getLsbD (w := 7 + 5 + 5 + 3 + 5 + 7) _ _
  simp only [BitVec.getLsbD_or, getLsbD_place, BitVec.getLsbD_append, BitVec.getLsbD_setWidth]
  grind

theorem build_i (f3 rs1 rd imm : Word) (c : BitVec 7) :
    place imm 12 20 ||| place rs1 5 15 ||| place f3 3 12 ||| place rd 5 7 ||| c.setWidth 32 =
      IFields.word ⟨imm.setWidth 12, rs1.setWidth 5, f3.setWidth 3, rd.setWidth 5, c⟩ := by
  apply BitVec.eq_of_getLsbD_eq
  intro i hi
  unfold IFields.word
  change _ = BitVec.getLsbD (w := 12 + 5 + 3 + 5 + 7) _ _
  simp only [BitVec.getLsbD_or, getLsbD_place, BitVec.getLsbD_append, BitVec.getLsbD_setWidth]
  grind

theorem build_s (f3 rs1 rs2 imm : Word) (c : BitVec 7) :
    place (imm >>> 5) 7 25 ||| place rs2 5 20 ||| place rs1 5 15 ||| place f3 3 12 |||
        place imm 5 7 ||| c.setWidth 32 =
      SFields.word ⟨imm.extractLsb' 5 7, rs2.setWidth 5, rs1.setWidth 5, f3.setWidth 3,
        imm.extractLsb' 0 5, c⟩ := by
  apply BitVec.eq_of_getLsbD_eq
  intro i hi
  unfold SFields.word
  change _ = BitVec.getLsbD (w := 7 + 5 + 5 + 3 + 5 + 7) _ _
  simp only [BitVec.getLsbD_or, getLsbD_place, BitVec.getLsbD_append, BitVec.getLsbD_setWidth,
    BitVec.getLsbD_ushiftRight, BitVec.getLsbD_extractLsb']
  grind

theorem build_b (f3 rs1 rs2 imm : Word) (c : BitVec 7) :
    place (imm >>> 12) 1 31 ||| place (imm >>> 5) 6 25 ||| place rs2 5 20 ||| place rs1 5 15 |||
        place f3 3 12 ||| place (imm >>> 1) 4 8 ||| place (imm >>> 11) 1 7 ||| c.setWidth 32 =
      BFields.word ⟨imm.extractLsb' 12 1, imm.extractLsb' 5 6, rs2.setWidth 5, rs1.setWidth 5,
        f3.setWidth 3, imm.extractLsb' 1 4, imm.extractLsb' 11 1, c⟩ := by
  apply BitVec.eq_of_getLsbD_eq
  intro i hi
  unfold BFields.word
  change _ = BitVec.getLsbD (w := 1 + 6 + 5 + 5 + 3 + 4 + 1 + 7) _ _
  simp only [BitVec.getLsbD_or, getLsbD_place, BitVec.getLsbD_append, BitVec.getLsbD_setWidth,
    BitVec.getLsbD_ushiftRight, BitVec.getLsbD_extractLsb']
  grind

theorem build_u (rd imm : Word) (c : BitVec 7) :
    place imm 20 12 ||| place rd 5 7 ||| c.setWidth 32 =
      UFields.word ⟨imm.setWidth 20, rd.setWidth 5, c⟩ := by
  apply BitVec.eq_of_getLsbD_eq
  intro i hi
  unfold UFields.word
  change _ = BitVec.getLsbD (w := 20 + 5 + 7) _ _
  simp only [BitVec.getLsbD_or, getLsbD_place, BitVec.getLsbD_append, BitVec.getLsbD_setWidth]
  grind

theorem build_j (rd imm : Word) (c : BitVec 7) :
    place (imm >>> 20) 1 31 ||| place (imm >>> 1) 10 21 ||| place (imm >>> 11) 1 20 |||
        place (imm >>> 12) 8 12 ||| place rd 5 7 ||| c.setWidth 32 =
      JFields.word ⟨imm.extractLsb' 20 1, imm.extractLsb' 1 10, imm.extractLsb' 11 1,
        imm.extractLsb' 12 8, rd.setWidth 5, c⟩ := by
  apply BitVec.eq_of_getLsbD_eq
  intro i hi
  unfold JFields.word
  change _ = BitVec.getLsbD (w := 1 + 10 + 1 + 8 + 5 + 7) _ _
  simp only [BitVec.getLsbD_or, getLsbD_place, BitVec.getLsbD_append, BitVec.getLsbD_setWidth,
    BitVec.getLsbD_ushiftRight, BitVec.getLsbD_extractLsb']
  grind

end Parts

namespace Line

/-- The lines whose operands fit their fields. -/
def Legal : Line → Prop
  | alu _ rd rs1 rs2 => rd < 32 ∧ rs1 < 32 ∧ rs2 < 32
  | imm _ rd rs1 value => rd < 32 ∧ rs1 < 32 ∧ FitsSigned 12 value
  | shift _ rd rs1 amount => rd < 32 ∧ rs1 < 32 ∧ amount < 32
  | load _ rd base offset => rd < 32 ∧ base < 32 ∧ FitsSigned 12 offset
  | store _ source base offset => source < 32 ∧ base < 32 ∧ FitsSigned 12 offset
  | branch _ rs1 rs2 offset => rs1 < 32 ∧ rs2 < 32 ∧ FitsSigned 13 offset ∧ 2 ∣ offset
  | jal rd offset => rd < 32 ∧ FitsSigned 21 offset ∧ 2 ∣ offset
  | jalr rd base offset => rd < 32 ∧ base < 32 ∧ FitsSigned 12 offset
  | lui rd value => rd < 32 ∧ value < 2 ^ 20
  | auipc rd value => rd < 32 ∧ value < 2 ^ 20

def parts : Line → Parts
  | alu f rd rs1 rs2 =>
    { opcode := .op, funct3 := f.funct3.setWidth 32, funct7 := f.funct7.setWidth 32,
      rd := .ofNat 32 rd, rs1 := .ofNat 32 rs1, rs2 := .ofNat 32 rs2 }
  | imm f rd rs1 value =>
    { opcode := .opImm, funct3 := f.alu.funct3.setWidth 32, rd := .ofNat 32 rd,
      rs1 := .ofNat 32 rs1, imm := .ofInt 32 value }
  | shift f rd rs1 amount =>
    { opcode := .opImm, funct3 := f.alu.funct3.setWidth 32, rd := .ofNat 32 rd,
      rs1 := .ofNat 32 rs1,
      imm := (f.alu.funct7.setWidth 32 <<< 5) ||| (.ofNat 32 amount &&& lowMask 5) }
  | load f rd base offset =>
    { opcode := .load, funct3 := f.funct3.setWidth 32, rd := .ofNat 32 rd,
      rs1 := .ofNat 32 base, imm := .ofInt 32 offset }
  | store width source base offset =>
    { opcode := .store, funct3 := width.funct3.setWidth 32, rs1 := .ofNat 32 base,
      rs2 := .ofNat 32 source, imm := .ofInt 32 offset }
  | branch cond rs1 rs2 offset =>
    { opcode := .branch, funct3 := cond.funct3.setWidth 32, rs1 := .ofNat 32 rs1,
      rs2 := .ofNat 32 rs2, imm := .ofInt 32 offset }
  | jal rd offset => { opcode := .jal, rd := .ofNat 32 rd, imm := .ofInt 32 offset }
  | jalr rd base offset =>
    { opcode := .jalr, funct3 := jalrFunct3.setWidth 32, rd := .ofNat 32 rd,
      rs1 := .ofNat 32 base, imm := .ofInt 32 offset }
  | lui rd value => { opcode := .lui, rd := .ofNat 32 rd, imm := .ofNat 32 value }
  | auipc rd value => { opcode := .auipc, rd := .ofNat 32 rd, imm := .ofNat 32 value }

def word (l : Line) : Word := l.parts.build

end Line

end RiscHart
