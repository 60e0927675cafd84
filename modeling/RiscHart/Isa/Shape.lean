import RiscHart.Isa.Error
import RiscHart.Isa.Format
import RiscHart.Isa.Immediate
import RiscHart.Isa.Register

/-!
# Shapes: words taken apart by format

For each format there is a record of its fields at their exact widths, with `ofWord` to read them
from any word and `word` to lay them out again, highest bits first. The fields of a format tile the
word, so the two are inverse to each other whatever the opcode is. `Shape` is a word taken apart by
the format that its own opcode selects.
-/

namespace RiscHart

/-- A word has only one division into pieces of given widths. -/
theorem append_inj_iff {m n : Nat} {x x' : BitVec m} {y y' : BitVec n} :
    x ++ y = x' ++ y' ↔ x = x' ∧ y = y' := by
  constructor
  · intro h
    have hleft := congrArg (BitVec.extractLsb' n m) h
    have hright := congrArg (BitVec.extractLsb' 0 n) h
    simp only [BitVec.extractLsb'_append_eq_left] at hleft
    simp only [BitVec.extractLsb'_append_eq_right] at hright
    exact ⟨hleft, hright⟩
  · rintro ⟨rfl, rfl⟩
    rfl

/-- Two source registers and a destination. -/
structure RFields where
  funct7 : BitVec 7
  rs2 : Reg
  rs1 : Reg
  funct3 : BitVec 3
  rd : Reg
  opcode : BitVec 7
  deriving DecidableEq

namespace RFields

def ofWord (w : Word) : RFields where
  funct7 := Field.funct7.get w
  rs2 := Field.rs2.get w
  rs1 := Field.rs1.get w
  funct3 := Field.funct3.get w
  rd := Field.rd.get w
  opcode := Field.opcode.get w

def word (f : RFields) : Word := f.funct7 ++ f.rs2 ++ f.rs1 ++ f.funct3 ++ f.rd ++ f.opcode

theorem word_ofWord (w : Word) : (ofWord w).word = w := by
  simp only [word, ofWord, Field.get_funct7, Field.get_rs2, Field.get_rs1, Field.get_funct3,
    Field.get_rd, Field.get_opcode]
  simp only [BitVec.extractLsb'_append_extractLsb'_eq_extractLsb']
  simp

theorem word_injective {f g : RFields} (h : f.word = g.word) : f = g := by
  have hpieces : f.funct7 ++ f.rs2 ++ f.rs1 ++ f.funct3 ++ f.rd ++ f.opcode =
      g.funct7 ++ g.rs2 ++ g.rs1 ++ g.funct3 ++ g.rd ++ g.opcode := h
  cases f
  cases g
  simpa only [append_inj_iff, RFields.mk.injEq, and_assoc] using hpieces

theorem ofWord_word (f : RFields) : ofWord f.word = f := word_injective (word_ofWord f.word)

end RFields

/-- One source register, a destination and a twelve-bit immediate. -/
structure IFields where
  imm : BitVec 12
  rs1 : Reg
  funct3 : BitVec 3
  rd : Reg
  opcode : BitVec 7
  deriving DecidableEq

namespace IFields

def ofWord (w : Word) : IFields where
  imm := Field.immI.get w
  rs1 := Field.rs1.get w
  funct3 := Field.funct3.get w
  rd := Field.rd.get w
  opcode := Field.opcode.get w

def word (f : IFields) : Word := f.imm ++ f.rs1 ++ f.funct3 ++ f.rd ++ f.opcode

/-- The amount by which a shift with this immediate moves. -/
def shamt (f : IFields) : BitVec 5 := f.imm.extractLsb' 0 5

/-- The upper immediate bits, which tell the shifts apart. -/
def funct7 (f : IFields) : BitVec 7 := f.imm.extractLsb' 5 7

theorem word_ofWord (w : Word) : (ofWord w).word = w := by
  simp only [word, ofWord, Field.get_immI, Field.get_rs1, Field.get_funct3, Field.get_rd,
    Field.get_opcode]
  simp only [BitVec.extractLsb'_append_extractLsb'_eq_extractLsb']
  simp

theorem word_injective {f g : IFields} (h : f.word = g.word) : f = g := by
  have hpieces : f.imm ++ f.rs1 ++ f.funct3 ++ f.rd ++ f.opcode =
      g.imm ++ g.rs1 ++ g.funct3 ++ g.rd ++ g.opcode := h
  cases f
  cases g
  simpa only [append_inj_iff, IFields.mk.injEq, and_assoc] using hpieces

theorem ofWord_word (f : IFields) : ofWord f.word = f := word_injective (word_ofWord f.word)

end IFields

/-- Two source registers and a twelve-bit immediate in two fragments. -/
structure SFields where
  imm11_5 : BitVec 7
  rs2 : Reg
  rs1 : Reg
  funct3 : BitVec 3
  imm4_0 : BitVec 5
  opcode : BitVec 7
  deriving DecidableEq

namespace SFields

def ofWord (w : Word) : SFields where
  imm11_5 := Field.immS11_5.get w
  rs2 := Field.rs2.get w
  rs1 := Field.rs1.get w
  funct3 := Field.funct3.get w
  imm4_0 := Field.immS4_0.get w
  opcode := Field.opcode.get w

def word (f : SFields) : Word := f.imm11_5 ++ f.rs2 ++ f.rs1 ++ f.funct3 ++ f.imm4_0 ++ f.opcode

def imm (f : SFields) : BitVec 12 := f.imm11_5 ++ f.imm4_0

theorem word_ofWord (w : Word) : (ofWord w).word = w := by
  simp only [word, ofWord, Field.get_immS11_5, Field.get_rs2, Field.get_rs1, Field.get_funct3,
    Field.get_immS4_0, Field.get_opcode]
  simp only [BitVec.extractLsb'_append_extractLsb'_eq_extractLsb']
  simp

theorem word_injective {f g : SFields} (h : f.word = g.word) : f = g := by
  have hpieces : f.imm11_5 ++ f.rs2 ++ f.rs1 ++ f.funct3 ++ f.imm4_0 ++ f.opcode =
      g.imm11_5 ++ g.rs2 ++ g.rs1 ++ g.funct3 ++ g.imm4_0 ++ g.opcode := h
  cases f
  cases g
  simpa only [append_inj_iff, SFields.mk.injEq, and_assoc] using hpieces

theorem ofWord_word (f : SFields) : ofWord f.word = f := word_injective (word_ofWord f.word)

end SFields

/-- Two source registers and a branch offset in four fragments. -/
structure BFields where
  imm12 : BitVec 1
  imm10_5 : BitVec 6
  rs2 : Reg
  rs1 : Reg
  funct3 : BitVec 3
  imm4_1 : BitVec 4
  imm11 : BitVec 1
  opcode : BitVec 7
  deriving DecidableEq

namespace BFields

def ofWord (w : Word) : BFields where
  imm12 := Field.immB12.get w
  imm10_5 := Field.immB10_5.get w
  rs2 := Field.rs2.get w
  rs1 := Field.rs1.get w
  funct3 := Field.funct3.get w
  imm4_1 := Field.immB4_1.get w
  imm11 := Field.immB11.get w
  opcode := Field.opcode.get w

def word (f : BFields) : Word :=
  f.imm12 ++ f.imm10_5 ++ f.rs2 ++ f.rs1 ++ f.funct3 ++ f.imm4_1 ++ f.imm11 ++ f.opcode

/-- Bits 12 to 1 of the offset. -/
def half (f : BFields) : BitVec 12 := f.imm12 ++ f.imm11 ++ f.imm10_5 ++ f.imm4_1

theorem word_ofWord (w : Word) : (ofWord w).word = w := by
  simp only [word, ofWord, Field.get_immB12, Field.get_immB10_5, Field.get_rs2, Field.get_rs1,
    Field.get_funct3, Field.get_immB4_1, Field.get_immB11, Field.get_opcode]
  simp only [BitVec.extractLsb'_append_extractLsb'_eq_extractLsb']
  simp

theorem word_injective {f g : BFields} (h : f.word = g.word) : f = g := by
  have hpieces : f.imm12 ++ f.imm10_5 ++ f.rs2 ++ f.rs1 ++ f.funct3 ++ f.imm4_1 ++ f.imm11 ++
      f.opcode =
      g.imm12 ++ g.imm10_5 ++ g.rs2 ++ g.rs1 ++ g.funct3 ++ g.imm4_1 ++ g.imm11 ++ g.opcode := h
  cases f
  cases g
  simpa only [append_inj_iff, BFields.mk.injEq, and_assoc] using hpieces

theorem ofWord_word (f : BFields) : ofWord f.word = f := word_injective (word_ofWord f.word)

end BFields

/-- A destination and an upper immediate. -/
structure UFields where
  imm : BitVec 20
  rd : Reg
  opcode : BitVec 7
  deriving DecidableEq

namespace UFields

def ofWord (w : Word) : UFields where
  imm := Field.immU.get w
  rd := Field.rd.get w
  opcode := Field.opcode.get w

def word (f : UFields) : Word := f.imm ++ f.rd ++ f.opcode

theorem word_ofWord (w : Word) : (ofWord w).word = w := by
  simp only [word, ofWord, Field.get_immU, Field.get_rd, Field.get_opcode]
  simp only [BitVec.extractLsb'_append_extractLsb'_eq_extractLsb']
  simp

theorem word_injective {f g : UFields} (h : f.word = g.word) : f = g := by
  have hpieces : f.imm ++ f.rd ++ f.opcode = g.imm ++ g.rd ++ g.opcode := h
  cases f
  cases g
  simpa only [append_inj_iff, UFields.mk.injEq, and_assoc] using hpieces

theorem ofWord_word (f : UFields) : ofWord f.word = f := word_injective (word_ofWord f.word)

end UFields

/-- A destination and a jump offset in four fragments. -/
structure JFields where
  imm20 : BitVec 1
  imm10_1 : BitVec 10
  imm11 : BitVec 1
  imm19_12 : BitVec 8
  rd : Reg
  opcode : BitVec 7
  deriving DecidableEq

namespace JFields

def ofWord (w : Word) : JFields where
  imm20 := Field.immJ20.get w
  imm10_1 := Field.immJ10_1.get w
  imm11 := Field.immJ11.get w
  imm19_12 := Field.immJ19_12.get w
  rd := Field.rd.get w
  opcode := Field.opcode.get w

def word (f : JFields) : Word :=
  f.imm20 ++ f.imm10_1 ++ f.imm11 ++ f.imm19_12 ++ f.rd ++ f.opcode

/-- Bits 20 to 1 of the offset. -/
def half (f : JFields) : BitVec 20 := f.imm20 ++ f.imm19_12 ++ f.imm11 ++ f.imm10_1

theorem word_ofWord (w : Word) : (ofWord w).word = w := by
  simp only [word, ofWord, Field.get_immJ20, Field.get_immJ10_1, Field.get_immJ11,
    Field.get_immJ19_12, Field.get_rd, Field.get_opcode]
  simp only [BitVec.extractLsb'_append_extractLsb'_eq_extractLsb']
  simp

theorem word_injective {f g : JFields} (h : f.word = g.word) : f = g := by
  have hpieces : f.imm20 ++ f.imm10_1 ++ f.imm11 ++ f.imm19_12 ++ f.rd ++ f.opcode =
      g.imm20 ++ g.imm10_1 ++ g.imm11 ++ g.imm19_12 ++ g.rd ++ g.opcode := h
  cases f
  cases g
  simpa only [append_inj_iff, JFields.mk.injEq, and_assoc] using hpieces

theorem ofWord_word (f : JFields) : ofWord f.word = f := word_injective (word_ofWord f.word)

end JFields

/-- A full-length word taken apart by one of the six formats. -/
inductive Shape where
  | r (f : RFields)
  | i (f : IFields)
  | s (f : SFields)
  | b (f : BFields)
  | u (f : UFields)
  | j (f : JFields)
  deriving DecidableEq

namespace Shape

def format : Shape → Format
  | r _ => .r
  | i _ => .i
  | s _ => .s
  | b _ => .b
  | u _ => .u
  | j _ => .j

def word : Shape → Word
  | r f => f.word
  | i f => f.word
  | s f => f.word
  | b f => f.word
  | u f => f.word
  | j f => f.word

def opcode : Shape → BitVec 7
  | r f => f.opcode
  | i f => f.opcode
  | s f => f.opcode
  | b f => f.opcode
  | u f => f.opcode
  | j f => f.opcode

/-- The destination register, in the formats that have one. -/
def rd? : Shape → Option Reg
  | r f => some f.rd
  | i f => some f.rd
  | u f => some f.rd
  | j f => some f.rd
  | s _ | b _ => none

/-- The word the immediate stands for, in the formats that have one. -/
def imm? : Shape → Option Word
  | r _ => none
  | i f => some (Imm.short f.imm)
  | s f => some (Imm.short f.imm)
  | b f => some (Imm.branch f.half)
  | u f => some (Imm.upper f.imm)
  | j f => some (Imm.jump f.half)

/-- Any word read in the given format, whatever its opcode. -/
def read (w : Word) : Format → Except DecodeError Shape
  | .r => .ok (r (.ofWord w))
  | .i => .ok (i (.ofWord w))
  | .s => .ok (s (.ofWord w))
  | .b => .ok (b (.ofWord w))
  | .u => .ok (u (.ofWord w))
  | .j => .ok (j (.ofWord w))
  | .compressed => .error (.notImplemented w)

/-- A word read in its own format. -/
def ofWord (w : Word) : Except DecodeError Shape :=
  match Format.ofWord? w with
  | some f => read w f
  | none => .error (.unknownOpcode w (Field.opcode.extract w))

end Shape

end RiscHart
