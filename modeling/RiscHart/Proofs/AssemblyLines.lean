import RiscHart.Proofs.Assembler
import RiscHart.Proofs.DecodeEncode
import RiscHart.Proofs.Integers

/-!
# Assembling is the inverse of decoding

On the lines whose operands fit, assembling and decoding are inverse to each other: the operands
of a decoded word, read off its shape, are those it was assembled from, and no word that is
decoded comes from anything else.
-/

namespace RiscHart

namespace Line

/-- The operands of an operation as the fields of a shape show them. There are none when the
operation belongs to another format. -/
def ofShape? : Op → Shape → Option Line
  | .alu f, .r s => some (.alu f s.rd.toNat s.rs1.toNat s.rs2.toNat)
  | .imm f, .i s => some (.imm f s.rd.toNat s.rs1.toNat (Imm.short s.imm).toInt)
  | .shift f, .i s => some (.shift f s.rd.toNat s.rs1.toNat s.shamt.toNat)
  | .load f, .i s => some (.load f s.rd.toNat s.rs1.toNat (Imm.short s.imm).toInt)
  | .store width, .s s => some (.store width s.rs2.toNat s.rs1.toNat (Imm.short s.imm).toInt)
  | .branch cond, .b s => some (.branch cond s.rs1.toNat s.rs2.toNat (Imm.branch s.half).toInt)
  | .jal, .j s => some (.jal s.rd.toNat (Imm.jump s.half).toInt)
  | .jalr, .i s => some (.jalr s.rd.toNat s.rs1.toNat (Imm.short s.imm).toInt)
  | .lui, .u s => some (.lui s.rd.toNat (Imm.upper s.imm >>> Imm.upperShift).toNat)
  | .auipc, .u s => some (.auipc s.rd.toNat (Imm.upper s.imm >>> Imm.upperShift).toNat)
  | _, _ => none

/-- The instruction a line stands for, with operands cut down to their fields. -/
def instr : Line → Instr
  | alu f rd rs1 rs2 => .alu f (.ofNat 5 rd) (.ofNat 5 rs1) (.ofNat 5 rs2)
  | imm f rd rs1 value => .imm f (.ofNat 5 rd) (.ofNat 5 rs1) (.ofInt 12 value)
  | shift f rd rs1 amount => .shift f (.ofNat 5 rd) (.ofNat 5 rs1) (.ofNat 5 amount)
  | load f rd base offset => .load f (.ofNat 5 rd) (.ofNat 5 base) (.ofInt 12 offset)
  | store width source base offset =>
    .store width (.ofNat 5 source) (.ofNat 5 base) (.ofInt 12 offset)
  | branch cond rs1 rs2 offset =>
    .branch cond (.ofNat 5 rs1) (.ofNat 5 rs2) ((BitVec.ofInt 13 offset).extractLsb' 1 12)
  | jal rd offset => .jal (.ofNat 5 rd) ((BitVec.ofInt 21 offset).extractLsb' 1 20)
  | jalr rd base offset => .jalr (.ofNat 5 rd) (.ofNat 5 base) (.ofInt 12 offset)
  | lui rd value => .lui (.ofNat 5 rd) (.ofNat 20 value)
  | auipc rd value => .auipc (.ofNat 5 rd) (.ofNat 20 value)

end Line

theorem setWidth_ofInt {m n : Nat} (h : n ≤ m) (z : Int) :
    (BitVec.ofInt m z).setWidth n = BitVec.ofInt n z := by
  apply BitVec.eq_of_toNat_eq
  rw [BitVec.toNat_setWidth, BitVec.toNat_ofInt, BitVec.toNat_ofInt]
  have hdvd : ((2 ^ n : Nat) : Int) ∣ ((2 ^ m : Nat) : Int) :=
    Int.natCast_dvd_natCast.mpr (Nat.pow_dvd_pow 2 h)
  have hm : (0 : Int) < ((2 ^ m : Nat) : Int) := Int.natCast_pos.mpr (Nat.two_pow_pos m)
  have hn : (0 : Int) < ((2 ^ n : Nat) : Int) := Int.natCast_pos.mpr (Nat.two_pow_pos n)
  have hcast : (((z % ((2 ^ m : Nat) : Int)).toNat % 2 ^ n : Nat) : Int) =
      ((z % ((2 ^ n : Nat) : Int)).toNat : Int) := by
    rw [Int.natCast_emod, Int.toNat_of_nonneg (Int.emod_nonneg z (by omega)),
      Int.toNat_of_nonneg (Int.emod_nonneg z (by omega)), Int.emod_emod_of_dvd z hdvd]
  exact Int.ofNat.inj hcast

theorem extractLsb'_ofInt {m n a k : Nat} (hn : n ≤ m) (hk : a + k ≤ n) (z : Int) :
    (BitVec.ofInt m z).extractLsb' a k = (BitVec.ofInt n z).extractLsb' a k := by
  rw [← setWidth_ofInt hn, BitVec.extractLsb'_setWidth_of_le hk]

/-- A piece of the stored part of an offset, whose bit 0 is not stored. -/
theorem extractLsb'_half {n a k : Nat} (hn : n + 1 ≤ 32) (hk : a + k ≤ n) (z : Int) :
    (BitVec.ofInt 32 z).extractLsb' (1 + a) k =
      ((BitVec.ofInt (n + 1) z).extractLsb' 1 n).extractLsb' a k := by
  rw [extractLsb'_nested _ hk, extractLsb'_ofInt hn (by omega)]

theorem setWidth_code {n : Nat} (h : n ≤ 32) (c : BitVec n) : (c.setWidth 32).setWidth n = c := by
  rw [BitVec.setWidth_setWidth_of_le c h, BitVec.setWidth_eq]

/-- The immediate of a shift is its code in front of the amount. -/
theorem setWidth_shift (code : BitVec 7) (amount : Nat) :
    ((code.setWidth 32 <<< 5) ||| (BitVec.ofNat 32 amount &&& lowMask 5) : Word).setWidth 12 =
      code ++ BitVec.ofNat 5 amount := by
  rw [← BitVec.setWidth_ofNat_of_le (show 5 ≤ 32 by omega)]
  apply BitVec.eq_of_getLsbD_eq
  intro i hi
  simp only [BitVec.getLsbD_setWidth, BitVec.getLsbD_or, BitVec.getLsbD_shiftLeft,
    BitVec.getLsbD_and, getLsbD_lowMask, BitVec.getLsbD_append]
  grind

namespace Line

/-- What the assembler lays out is the encoding of the instruction, for any operands at all. -/
theorem word_eq_encode (l : Line) : l.word = l.instr.encode := by
  have hreg : ∀ n : Nat, (BitVec.ofNat 32 n).setWidth 5 = BitVec.ofNat 5 n :=
    fun n => BitVec.setWidth_ofNat_of_le (by omega) n
  have hshort : ∀ z : Int, (BitVec.ofInt 32 z).setWidth 12 = BitVec.ofInt 12 z :=
    setWidth_ofInt (by omega)
  have hf3 : ∀ c : BitVec 3, (c.setWidth 32).setWidth 3 = c := setWidth_code (by omega)
  cases l with
  | alu f rd rs1 rs2 =>
    have hf7 := setWidth_code (by omega) f.funct7
    simp only [word, parts, Parts.build, Parts.build_r, hf7, hf3, hreg]
    rfl
  | imm f rd rs1 value =>
    simp only [word, parts, Parts.build, Parts.build_i, hshort, hf3, hreg]
    rfl
  | shift f rd rs1 amount =>
    have himm := setWidth_shift f.alu.funct7 amount
    simp only [word, parts, Parts.build, Parts.build_i, himm, hf3, hreg]
    rfl
  | load f rd base offset =>
    simp only [word, parts, Parts.build, Parts.build_i, hshort, hf3, hreg]
    rfl
  | store width source base offset =>
    have hhigh := extractLsb'_ofInt (show 12 ≤ 32 by omega) (show 5 + 7 ≤ 12 by omega) offset
    have hlow := extractLsb'_ofInt (show 12 ≤ 32 by omega) (show 0 + 5 ≤ 12 by omega) offset
    simp only [word, parts, Parts.build, Parts.build_s, hhigh, hlow, hf3, hreg]
    rfl
  | branch cond rs1 rs2 offset =>
    have hfrag : ∀ a k, a + k ≤ 12 → (BitVec.ofInt 32 offset).extractLsb' (1 + a) k =
        ((BitVec.ofInt 13 offset).extractLsb' 1 12).extractLsb' a k :=
      fun a k hk => extractLsb'_half (by omega) hk offset
    have h12 := hfrag 11 1 (by omega)
    have h11 := hfrag 10 1 (by omega)
    have h10_5 := hfrag 4 6 (by omega)
    have h4_1 := hfrag 0 4 (by omega)
    simp only [Nat.reduceAdd] at h12 h11 h10_5 h4_1
    simp only [word, parts, Parts.build, Parts.build_b, h12, h11, h10_5, h4_1, hf3, hreg]
    rfl
  | jal rd offset =>
    have hfrag : ∀ a k, a + k ≤ 20 → (BitVec.ofInt 32 offset).extractLsb' (1 + a) k =
        ((BitVec.ofInt 21 offset).extractLsb' 1 20).extractLsb' a k :=
      fun a k hk => extractLsb'_half (by omega) hk offset
    have h20 := hfrag 19 1 (by omega)
    have h19_12 := hfrag 11 8 (by omega)
    have h11 := hfrag 10 1 (by omega)
    have h10_1 := hfrag 0 10 (by omega)
    simp only [Nat.reduceAdd] at h20 h19_12 h11 h10_1
    simp only [word, parts, Parts.build, Parts.build_j, h20, h19_12, h11, h10_1, hreg]
    rfl
  | jalr rd base offset =>
    simp only [word, parts, Parts.build, Parts.build_i, hshort, hf3, hreg]
    rfl
  | lui rd value =>
    have himm := BitVec.setWidth_ofNat_of_le (show 20 ≤ 32 by omega) value
    simp only [word, parts, Parts.build, Parts.build_u, himm, hreg]
    rfl
  | auipc rd value =>
    have himm := BitVec.setWidth_ofNat_of_le (show 20 ≤ 32 by omega) value
    simp only [word, parts, Parts.build, Parts.build_u, himm, hreg]
    rfl

theorem decode_word (l : Line) : decode l.word = .ok l.instr := by
  rw [l.word_eq_encode, decode_encode]

end Line

theorem Imm.toNat_upper_shift (imm : BitVec 20) : (upper imm >>> upperShift).toNat = imm.toNat := by
  rw [BitVec.toNat_ushiftRight, toNat_upper, Nat.shiftRight_eq_div_pow]
  exact Nat.mul_div_cancel imm.toNat (by omega)

theorem fitsSigned_toInt {n : Nat} (x : BitVec n) : FitsSigned n x.toInt :=
  ⟨x.le_toInt, x.toInt_lt⟩

theorem toInt_ofInt_of_fits {n : Nat} {z : Int} (hn : 0 < n) (h : FitsSigned n z) :
    (BitVec.ofInt n z).toInt = z :=
  BitVec.toInt_ofInt_eq_self hn h.1 h.2

/-- The stored part of an even offset, with the bit that is not stored put back. -/
theorem append_half {n : Nat} {z : Int} (h : 2 ∣ z) :
    (BitVec.ofInt (n + 1) z).extractLsb' 1 n ++ 0#1 = BitVec.ofInt (n + 1) z := by
  have hbit : (0#1) = (BitVec.ofInt (n + 1) z).extractLsb' 0 1 := by
    rw [extractLsb'_ofInt (show 1 ≤ n + 1 by omega) (show 0 + 1 ≤ 1 by omega)]
    have hz : BitVec.ofInt 1 z = 0#1 := by
      apply BitVec.eq_of_toNat_eq
      rw [BitVec.toNat_ofInt, BitVec.toNat_ofNat]
      omega
    rw [hz]
    rfl
  rw [hbit, BitVec.extractLsb'_append_extractLsb'_eq_extractLsb' (by omega)]
  simp

theorem extractLsb'_append_zero {n : Nat} (half : BitVec n) :
    (half ++ 0#1).extractLsb' 1 n = half :=
  BitVec.extractLsb'_append_eq_left

theorem two_dvd_toInt_append {n : Nat} (half : BitVec n) : 2 ∣ (half ++ 0#1).toInt := by
  rw [BitVec.toInt_append_zero]
  exact ⟨half.toInt, by omega⟩

namespace Instr

/-- An instruction with its operands as numbers. -/
def line : Instr → Line
  | alu f rd rs1 rs2 => .alu f rd.toNat rs1.toNat rs2.toNat
  | imm f rd rs1 value => .imm f rd.toNat rs1.toNat value.toInt
  | shift f rd rs1 amount => .shift f rd.toNat rs1.toNat amount.toNat
  | load f rd base offset => .load f rd.toNat base.toNat offset.toInt
  | store width source base offset => .store width source.toNat base.toNat offset.toInt
  | branch cond rs1 rs2 half => .branch cond rs1.toNat rs2.toNat (half ++ 0#1).toInt
  | jal rd half => .jal rd.toNat (half ++ 0#1).toInt
  | jalr rd base offset => .jalr rd.toNat base.toNat offset.toInt
  | lui rd value => .lui rd.toNat value.toNat
  | auipc rd value => .auipc rd.toNat value.toNat

theorem legal_line (i : Instr) : i.line.Legal := by
  have hr : ∀ r : Reg, r.toNat < 32 := fun r => r.isLt
  cases i with
  | alu f rd rs1 rs2 => exact ⟨hr rd, hr rs1, hr rs2⟩
  | imm f rd rs1 value => exact ⟨hr rd, hr rs1, fitsSigned_toInt value⟩
  | shift f rd rs1 amount => exact ⟨hr rd, hr rs1, amount.isLt⟩
  | load f rd base offset => exact ⟨hr rd, hr base, fitsSigned_toInt offset⟩
  | store width source base offset => exact ⟨hr source, hr base, fitsSigned_toInt offset⟩
  | branch cond rs1 rs2 half =>
    exact ⟨hr rs1, hr rs2, fitsSigned_toInt _, two_dvd_toInt_append half⟩
  | jal rd half => exact ⟨hr rd, fitsSigned_toInt _, two_dvd_toInt_append half⟩
  | jalr rd base offset => exact ⟨hr rd, hr base, fitsSigned_toInt offset⟩
  | lui rd value => exact ⟨hr rd, value.isLt⟩
  | auipc rd value => exact ⟨hr rd, value.isLt⟩

theorem instr_line (i : Instr) : i.line.instr = i := by
  cases i <;>
    simp only [line, Line.instr, BitVec.ofNat_toNat, BitVec.setWidth_eq, BitVec.ofInt_toInt,
      extractLsb'_append_zero]

/-- The fields of an instruction show its operands. -/
theorem ofShape?_line (i : Instr) : Line.ofShape? i.op i.shape = some i.line := by
  cases i with
  | alu f rd rs1 rs2 => rfl
  | imm f rd rs1 value => simp only [op, shape, Line.ofShape?, line, Imm.toInt_short]
  | shift f rd rs1 amount =>
    simp only [op, shape, Line.ofShape?, line, IFields.shamt, BitVec.extractLsb'_append_eq_right]
  | load f rd base offset => simp only [op, shape, Line.ofShape?, line, Imm.toInt_short]
  | store width source base offset =>
    have himm : offset.extractLsb' 5 7 ++ offset.extractLsb' 0 5 = offset :=
      BitVec.extractLsb'_append_extractLsb'
    simp only [op, shape, Line.ofShape?, line, SFields.imm, himm, Imm.toInt_short]
  | branch cond rs1 rs2 half =>
    simp only [op, shape, Line.ofShape?, line, BFields.half, BFields.append_fragments,
      Imm.toInt_branch]
  | jal rd half =>
    simp only [op, shape, Line.ofShape?, line, JFields.half, JFields.append_fragments,
      Imm.toInt_jump]
  | jalr rd base offset => simp only [op, shape, Line.ofShape?, line, Imm.toInt_short]
  | lui rd value => simp only [op, shape, Line.ofShape?, line, Imm.toNat_upper_shift]
  | auipc rd value => simp only [op, shape, Line.ofShape?, line, Imm.toNat_upper_shift]

end Instr

namespace Line

/-- Nothing is cut off a legal line. -/
theorem line_instr {l : Line} (h : l.Legal) : l.instr.line = l := by
  have hreg : ∀ n : Nat, n < 32 → (BitVec.ofNat 5 n).toNat = n := fun _ => Reg.toNat_ofNat
  have hint : ∀ z : Int, FitsSigned 12 z → (BitVec.ofInt 12 z).toInt = z :=
    fun z => toInt_ofInt_of_fits (by omega)
  cases l with
  | alu f rd rs1 rs2 =>
    obtain ⟨hrd, h1, h2⟩ := h
    simp only [instr, Instr.line, hreg rd hrd, hreg rs1 h1, hreg rs2 h2]
  | imm f rd rs1 value =>
    obtain ⟨hrd, h1, hv⟩ := h
    simp only [instr, Instr.line, hreg rd hrd, hreg rs1 h1, hint value hv]
  | shift f rd rs1 amount =>
    obtain ⟨hrd, h1, ha⟩ := h
    simp only [instr, Instr.line, hreg rd hrd, hreg rs1 h1, hreg amount ha]
  | load f rd base offset =>
    obtain ⟨hrd, hb, ho⟩ := h
    simp only [instr, Instr.line, hreg rd hrd, hreg base hb, hint offset ho]
  | store width source base offset =>
    obtain ⟨hs, hb, ho⟩ := h
    simp only [instr, Instr.line, hreg source hs, hreg base hb, hint offset ho]
  | branch cond rs1 rs2 offset =>
    obtain ⟨h1, h2, ho, heven⟩ := h
    have hz := toInt_ofInt_of_fits (by omega) ho
    simp only [instr, Instr.line, hreg rs1 h1, hreg rs2 h2, append_half heven, hz]
  | jal rd offset =>
    obtain ⟨hrd, ho, heven⟩ := h
    have hz := toInt_ofInt_of_fits (by omega) ho
    simp only [instr, Instr.line, hreg rd hrd, append_half heven, hz]
  | jalr rd base offset =>
    obtain ⟨hrd, hb, ho⟩ := h
    simp only [instr, Instr.line, hreg rd hrd, hreg base hb, hint offset ho]
  | lui rd value =>
    obtain ⟨hrd, hv⟩ := h
    have hn : (BitVec.ofNat 20 value).toNat = value := toNat_ofNat_of_lt hv
    simp only [instr, Instr.line, hreg rd hrd, hn]
  | auipc rd value =>
    obtain ⟨hrd, hv⟩ := h
    have hn : (BitVec.ofNat 20 value).toNat = value := toNat_ofNat_of_lt hv
    simp only [instr, Instr.line, hreg rd hrd, hn]

end Line

/-- Assembling and decoding are inverse to each other between the legal lines and the words that are
decoded. -/
theorem decode_assemble_inverse :
    (∀ l : Line, l.Legal → ∃ i, decode l.word = .ok i ∧ Line.ofShape? i.op i.shape = some l) ∧
    (∀ w i, decode w = .ok i →
      ∃ l : Line, Line.ofShape? i.op i.shape = some l ∧ l.Legal ∧ l.word = w) ∧
    (∀ l l' : Line, l.Legal → l'.Legal → l.word = l'.word → l = l') := by
  have hback : ∀ l : Line, l.Legal →
      ∃ i, decode l.word = .ok i ∧ Line.ofShape? i.op i.shape = some l := by
    intro l hl
    refine ⟨l.instr, ?_, ?_⟩
    · rw [l.word_eq_encode, decode_encode]
    · rw [l.instr.ofShape?_line, Line.line_instr hl]
  refine ⟨hback, ?_, ?_⟩
  · intro w i hi
    refine ⟨i.line, i.ofShape?_line, i.legal_line, ?_⟩
    rw [i.line.word_eq_encode, i.instr_line, decode_eq_ok_iff.mp hi]
  · intro l l' hl hl' hw
    obtain ⟨i, hi, hs⟩ := hback l hl
    obtain ⟨j, hj, hs'⟩ := hback l' hl'
    rw [hw, hj] at hi
    cases hi
    exact Option.some.inj (hs.symm.trans hs')

/-- A branch by the least offset there is. -/
theorem decode_assemble_inverse_branch :
    (Line.branch .geu 31 1 (-4096)).Legal ∧
      ∃ i, decode 0x801FF063#32 = .ok i ∧
        Line.ofShape? i.op i.shape = some (.branch .geu 31 1 (-4096)) := by
  have hl : (Line.branch .geu 31 1 (-4096)).Legal :=
    ⟨by decide, by decide, by decide, by decide⟩
  exact ⟨hl, decode_assemble_inverse.1 _ hl⟩

end RiscHart
