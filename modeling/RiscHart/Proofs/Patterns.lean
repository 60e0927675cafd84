import RiscHart.Isa.Shape

/-!
# The table of encodings

The listing of the base instruction set gives each operation a mask and a value: a word belongs to
the operation whose value it shows under the mask. The table is written out as numbers, apart from
the codes and the formats that decoding uses. Its masks keep whole fields, so that belonging to an
operation is having its codes.
-/

namespace RiscHart

/-- The bits of a word that are fixed, and how they are set. -/
structure Pattern where
  mask : Word
  value : Word

def Pattern.Matches (p : Pattern) (w : Word) : Prop := w &&& p.mask = p.value

instance (p : Pattern) (w : Word) : Decidable (p.Matches w) :=
  inferInstanceAs (Decidable (w &&& p.mask = p.value))

namespace Op

def all : List Op :=
  AluOp.all.map alu ++ ImmOp.all.map imm ++ ShiftOp.all.map shift ++ LoadOp.all.map load ++
    Width.all.map store ++ Condition.all.map branch ++ [jal, jalr, lui, auipc]

theorem mem_all (o : Op) : o ∈ all := by
  cases o with
  | alu f => cases f <;> decide
  | imm f => cases f <;> decide
  | shift f => cases f <;> decide
  | load f => cases f <;> decide
  | store width => cases width <;> decide
  | branch cond => cases cond <;> decide
  | jal => decide
  | jalr => decide
  | lui => decide
  | auipc => decide

example : all.length = 37 := rfl

/-- The encoding of each operation: all but the operands. -/
def pattern : Op → Pattern
  | lui => ⟨0x0000007F, 0x00000037⟩
  | auipc => ⟨0x0000007F, 0x00000017⟩
  | jal => ⟨0x0000007F, 0x0000006F⟩
  | jalr => ⟨0x0000707F, 0x00000067⟩
  | branch .eq => ⟨0x0000707F, 0x00000063⟩
  | branch .ne => ⟨0x0000707F, 0x00001063⟩
  | branch .lt => ⟨0x0000707F, 0x00004063⟩
  | branch .ge => ⟨0x0000707F, 0x00005063⟩
  | branch .ltu => ⟨0x0000707F, 0x00006063⟩
  | branch .geu => ⟨0x0000707F, 0x00007063⟩
  | load .lb => ⟨0x0000707F, 0x00000003⟩
  | load .lh => ⟨0x0000707F, 0x00001003⟩
  | load .lw => ⟨0x0000707F, 0x00002003⟩
  | load .lbu => ⟨0x0000707F, 0x00004003⟩
  | load .lhu => ⟨0x0000707F, 0x00005003⟩
  | store .byte => ⟨0x0000707F, 0x00000023⟩
  | store .half => ⟨0x0000707F, 0x00001023⟩
  | store .word => ⟨0x0000707F, 0x00002023⟩
  | imm .add => ⟨0x0000707F, 0x00000013⟩
  | imm .slt => ⟨0x0000707F, 0x00002013⟩
  | imm .sltu => ⟨0x0000707F, 0x00003013⟩
  | imm .xor => ⟨0x0000707F, 0x00004013⟩
  | imm .or => ⟨0x0000707F, 0x00006013⟩
  | imm .and => ⟨0x0000707F, 0x00007013⟩
  | shift .sll => ⟨0xFE00707F, 0x00001013⟩
  | shift .srl => ⟨0xFE00707F, 0x00005013⟩
  | shift .sra => ⟨0xFE00707F, 0x40005013⟩
  | alu .add => ⟨0xFE00707F, 0x00000033⟩
  | alu .sub => ⟨0xFE00707F, 0x40000033⟩
  | alu .sll => ⟨0xFE00707F, 0x00001033⟩
  | alu .slt => ⟨0xFE00707F, 0x00002033⟩
  | alu .sltu => ⟨0xFE00707F, 0x00003033⟩
  | alu .xor => ⟨0xFE00707F, 0x00004033⟩
  | alu .srl => ⟨0xFE00707F, 0x00005033⟩
  | alu .sra => ⟨0xFE00707F, 0x40005033⟩
  | alu .or => ⟨0xFE00707F, 0x00006033⟩
  | alu .and => ⟨0xFE00707F, 0x00007033⟩

end Op

theorem RFields.word_and_word (f g : RFields) :
    f.word &&& g.word = RFields.word ⟨f.funct7 &&& g.funct7, f.rs2 &&& g.rs2, f.rs1 &&& g.rs1,
      f.funct3 &&& g.funct3, f.rd &&& g.rd, f.opcode &&& g.opcode⟩ := by
  have happend : ∀ (a a' : BitVec 7) (b b' c c' : Reg) (d d' : BitVec 3) (e e' : Reg)
      (k k' : BitVec 7), (a ++ b ++ c ++ d ++ e ++ k) &&& (a' ++ b' ++ c' ++ d' ++ e' ++ k') =
        (a &&& a') ++ (b &&& b') ++ (c &&& c') ++ (d &&& d') ++ (e &&& e') ++ (k &&& k') := by
    intros
    simp only [BitVec.and_append]
  exact happend _ _ _ _ _ _ _ _ _ _ _ _

namespace Pattern

/-- A pattern that looks at the opcode and, through `m3` and `m7`, at the minor codes. -/
theorem matches_iff {p : Pattern} {m7 c7 : BitVec 7} {m3 c3 : BitVec 3} {c : BitVec 7}
    (hm : p.mask = RFields.word ⟨m7, 0, 0, m3, 0, 127⟩)
    (hv : p.value = RFields.word ⟨c7, 0, 0, c3, 0, c⟩) (w : Word) :
    p.Matches w ↔ Field.opcode.get w = c ∧ Field.funct3.get w &&& m3 = c3 ∧
      Field.funct7.get w &&& m7 = c7 := by
  have hand : w &&& p.mask = RFields.word
      ⟨Field.funct7.get w &&& m7, 0, 0, Field.funct3.get w &&& m3, 0, Field.opcode.get w⟩ := by
    have hall : ∀ x : BitVec 7, x &&& 127 = x := fun x => BitVec.and_allOnes
    have hzero : ∀ x : Reg, x &&& 0 = 0 := fun x => BitVec.and_zero
    have hw := RFields.word_and_word (.ofWord w) ⟨m7, 0, 0, m3, 0, 127⟩
    rw [RFields.word_ofWord, ← hm] at hw
    simpa only [RFields.ofWord, hall, hzero] using hw
  rw [Matches, hand, hv]
  constructor
  · intro h
    have hf := RFields.word_injective h
    simp only [RFields.mk.injEq] at hf
    exact ⟨hf.2.2.2.2.2, hf.2.2.2.1, hf.1⟩
  · rintro ⟨rfl, rfl, rfl⟩
    rfl

theorem matches_opcode_iff {p : Pattern} {c : BitVec 7} (hm : p.mask = 0x7F#32)
    (hv : p.value = RFields.word ⟨0, 0, 0, 0, 0, c⟩) (w : Word) :
    p.Matches w ↔ Field.opcode.get w = c := by
  rw [matches_iff (hm.trans (by rfl : _ = RFields.word ⟨0, 0, 0, 0, 0, 127⟩)) hv]
  have h3 : Field.funct3.get w &&& 0 = 0 := BitVec.and_zero
  have h7 : Field.funct7.get w &&& 0 = 0 := BitVec.and_zero
  simp only [h3, h7, and_true]

theorem matches_minor_iff {p : Pattern} {c3 : BitVec 3} {c : BitVec 7} (hm : p.mask = 0x707F#32)
    (hv : p.value = RFields.word ⟨0, 0, 0, c3, 0, c⟩) (w : Word) :
    p.Matches w ↔ Field.opcode.get w = c ∧ Field.funct3.get w = c3 := by
  rw [matches_iff (hm.trans (by rfl : _ = RFields.word ⟨0, 0, 0, 7, 0, 127⟩)) hv]
  have h3 : Field.funct3.get w &&& 7 = Field.funct3.get w := BitVec.and_allOnes
  have h7 : Field.funct7.get w &&& 0 = 0 := BitVec.and_zero
  simp only [h3, h7, and_true]

theorem matches_full_iff {p : Pattern} {c7 : BitVec 7} {c3 : BitVec 3} {c : BitVec 7}
    (hm : p.mask = 0xFE00707F#32) (hv : p.value = RFields.word ⟨c7, 0, 0, c3, 0, c⟩) (w : Word) :
    p.Matches w ↔
      Field.opcode.get w = c ∧ Field.funct3.get w = c3 ∧ Field.funct7.get w = c7 := by
  rw [matches_iff (hm.trans (by rfl : _ = RFields.word ⟨127, 0, 0, 7, 0, 127⟩)) hv]
  have h3 : Field.funct3.get w &&& 7 = Field.funct3.get w := BitVec.and_allOnes
  have h7 : Field.funct7.get w &&& 127 = Field.funct7.get w := BitVec.and_allOnes
  rw [h3, h7]

end Pattern

namespace Op

/-! What a match says for each family of operations, in terms of the codes of that family. -/

theorem matches_alu_iff (f : AluOp) (w : Word) :
    (alu f).pattern.Matches w ↔ Field.opcode.get w = Opcode.op.code ∧
      Field.funct3.get w = f.funct3 ∧ Field.funct7.get w = f.funct7 :=
  Pattern.matches_full_iff (by cases f <;> rfl) (by cases f <;> rfl) w

theorem matches_imm_iff (f : ImmOp) (w : Word) :
    (imm f).pattern.Matches w ↔ Field.opcode.get w = Opcode.opImm.code ∧
      Field.funct3.get w = f.alu.funct3 :=
  Pattern.matches_minor_iff (by cases f <;> rfl) (by cases f <;> rfl) w

theorem matches_shift_iff (f : ShiftOp) (w : Word) :
    (shift f).pattern.Matches w ↔ Field.opcode.get w = Opcode.opImm.code ∧
      Field.funct3.get w = f.alu.funct3 ∧ Field.funct7.get w = f.alu.funct7 :=
  Pattern.matches_full_iff (by cases f <;> rfl) (by cases f <;> rfl) w

theorem matches_load_iff (f : LoadOp) (w : Word) :
    (load f).pattern.Matches w ↔ Field.opcode.get w = Opcode.load.code ∧
      Field.funct3.get w = f.funct3 :=
  Pattern.matches_minor_iff (by cases f <;> rfl) (by cases f <;> rfl) w

theorem matches_store_iff (width : Width) (w : Word) :
    (store width).pattern.Matches w ↔ Field.opcode.get w = Opcode.store.code ∧
      Field.funct3.get w = width.funct3 :=
  Pattern.matches_minor_iff (by cases width <;> rfl) (by cases width <;> rfl) w

theorem matches_branch_iff (cond : Condition) (w : Word) :
    (branch cond).pattern.Matches w ↔ Field.opcode.get w = Opcode.branch.code ∧
      Field.funct3.get w = cond.funct3 :=
  Pattern.matches_minor_iff (by cases cond <;> rfl) (by cases cond <;> rfl) w

theorem matches_jal_iff (w : Word) :
    jal.pattern.Matches w ↔ Field.opcode.get w = Opcode.jal.code :=
  Pattern.matches_opcode_iff rfl rfl w

theorem matches_jalr_iff (w : Word) :
    jalr.pattern.Matches w ↔ Field.opcode.get w = Opcode.jalr.code ∧
      Field.funct3.get w = jalrFunct3 :=
  Pattern.matches_minor_iff rfl rfl w

theorem matches_lui_iff (w : Word) :
    lui.pattern.Matches w ↔ Field.opcode.get w = Opcode.lui.code :=
  Pattern.matches_opcode_iff rfl rfl w

theorem matches_auipc_iff (w : Word) :
    auipc.pattern.Matches w ↔ Field.opcode.get w = Opcode.auipc.code :=
  Pattern.matches_opcode_iff rfl rfl w

end Op

end RiscHart
