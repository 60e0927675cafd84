import RiscHart.Alu
import RiscHart.Proofs.Manual
import RiscHart.Proofs.ShapeWords

/-!
# Operands and values agree with the manual

What the manual reads off the number of a word are the fields of that word, in every format, and
what it computes from two numbers is what the arithmetic unit computes from two words. Most
immediates agree as signed numbers; the upper one is a number without a sign.
-/

namespace RiscHart

namespace Manual

/-! The fields of a word, by their positions. -/

theorem rd_eq (w : Word) : rd w.toNat = (Field.rd.get w).toNat := by
  rw [rd, bitField_toNat, Field.get_rd]

theorem rs1_eq (w : Word) : rs1 w.toNat = (Field.rs1.get w).toNat := by
  rw [rs1, bitField_toNat, Field.get_rs1]

theorem rs2_eq (w : Word) : rs2 w.toNat = (Field.rs2.get w).toNat := by
  rw [rs2, bitField_toNat, Field.get_rs2]

theorem immI_eq (w : Word) : immI w.toNat = (IFields.ofWord w).imm.toInt := by
  rw [immI, bitField_toNat, IFields.ofWord, Field.get_immI]
  exact signed_toNat (by omega) _

theorem shamt_eq (w : Word) : shamt w.toNat = (IFields.ofWord w).shamt.toNat := by
  rw [shamt, bitField_toNat, IFields.shamt, IFields.ofWord, Field.get_immI,
    extractLsb'_nested w (by omega)]

theorem immS_eq (w : Word) : immS w.toNat = (SFields.ofWord w).imm.toInt := by
  have himm : bitField w.toNat 25 31 * 2 ^ 5 + bitField w.toNat 7 11 =
      (SFields.ofWord w).imm.toNat := by
    rw [SFields.imm, toNat_append, SFields.ofWord, Field.get_immS11_5, Field.get_immS4_0,
      bitField_toNat, bitField_toNat]
  rw [immS, himm]
  exact signed_toNat (by omega) _

theorem immB_eq (w : Word) : immB w.toNat = (Imm.branch (BFields.ofWord w).half).toInt := by
  have h12 : bitField w.toNat 31 31 = (w.extractLsb' 31 1).toNat := bitField_toNat w 31 31
  have h11 : bitField w.toNat 7 7 = (w.extractLsb' 7 1).toNat := bitField_toNat w 7 7
  have h10_5 : bitField w.toNat 25 30 = (w.extractLsb' 25 6).toNat := bitField_toNat w 25 30
  have h4_1 : bitField w.toNat 8 11 = (w.extractLsb' 8 4).toNat := bitField_toNat w 8 11
  have himm : bitField w.toNat 31 31 * 2 ^ 12 + bitField w.toNat 7 7 * 2 ^ 11 +
      bitField w.toNat 25 30 * 2 ^ 5 + bitField w.toNat 8 11 * 2 =
      ((BFields.ofWord w).half ++ 0#1).toNat := by
    simp only [BFields.half, toNat_append, BFields.ofWord, Field.get_immB12, Field.get_immB11,
      Field.get_immB10_5, Field.get_immB4_1, h12, h11, h10_5, h4_1, BitVec.toNat_ofNat]
    omega
  rw [immB, himm, Imm.toInt_branch]
  exact signed_toNat (by omega) _

theorem immJ_eq (w : Word) : immJ w.toNat = (Imm.jump (JFields.ofWord w).half).toInt := by
  have h20 : bitField w.toNat 31 31 = (w.extractLsb' 31 1).toNat := bitField_toNat w 31 31
  have h19_12 : bitField w.toNat 12 19 = (w.extractLsb' 12 8).toNat := bitField_toNat w 12 19
  have h11 : bitField w.toNat 20 20 = (w.extractLsb' 20 1).toNat := bitField_toNat w 20 20
  have h10_1 : bitField w.toNat 21 30 = (w.extractLsb' 21 10).toNat := bitField_toNat w 21 30
  have himm : bitField w.toNat 31 31 * 2 ^ 20 + bitField w.toNat 12 19 * 2 ^ 12 +
      bitField w.toNat 20 20 * 2 ^ 11 + bitField w.toNat 21 30 * 2 =
      ((JFields.ofWord w).half ++ 0#1).toNat := by
    simp only [JFields.half, toNat_append, JFields.ofWord, Field.get_immJ20, Field.get_immJ19_12,
      Field.get_immJ11, Field.get_immJ10_1, h20, h19_12, h11, h10_1, BitVec.toNat_ofNat]
    omega
  rw [immJ, himm, Imm.toInt_jump]
  exact signed_toNat (by omega) _

theorem immU_eq (w : Word) : immU w.toNat = (Imm.upper (UFields.ofWord w).imm).toNat := by
  have himm : bitField w.toNat 12 31 = (w.extractLsb' 12 20).toNat := bitField_toNat w 12 31
  have hupper := Imm.toNat_upper (w.extractLsb' 12 20)
  rw [UFields.ofWord, Field.get_immU]
  exact (congrArg (· * 4096) himm).trans hupper.symm

end Manual

/-! Values. -/

theorem toNat_and_shamtMask (b : Word) : (b &&& shamtMask).toNat = b.toNat % 32 := by
  rw [BitVec.toNat_and]
  exact Nat.and_two_pow_sub_one_eq_mod b.toNat 5

theorem signed_lt_iff (a b : Word) :
    signed 32 a.toNat < signed 32 b.toNat ↔ a.slt b = true := by
  rw [signed_toNat (by omega), signed_toNat (by omega), BitVec.slt, decide_eq_true_iff]

namespace Manual

theorem sll_toNat (a b : Word) : sll a.toNat b.toNat = (a <<< (b &&& shamtMask)).toNat := by
  rw [BitVec.shiftLeft_eq', BitVec.toNat_shiftLeft, toNat_and_shamtMask, Nat.shiftLeft_eq, sll,
    wrap]
  norm_cast

theorem srl_toNat (a b : Word) : srl a.toNat b.toNat = (a >>> (b &&& shamtMask)).toNat := by
  rw [BitVec.ushiftRight_eq', BitVec.toNat_ushiftRight, toNat_and_shamtMask,
    Nat.shiftRight_eq_div_pow, srl]

theorem sra_toNat (a b : Word) :
    sra a.toNat b.toNat = (a.sshiftRight (b &&& shamtMask).toNat).toNat := by
  have hz : (a.sshiftRight (b &&& shamtMask).toNat).toInt = a.toInt / 2 ^ (b.toNat % 32) := by
    rw [BitVec.toInt_sshiftRight, toNat_and_shamtMask, Int.shiftRight_eq_div_pow]
    norm_cast
  rw [sra, signed_toNat (by omega), ← hz, wrap_toInt]

theorem slt_toNat (a b : Word) :
    slt a.toNat b.toNat = (if a.slt b then 1 else 0 : Word).toNat := by
  rw [slt, apply_ite BitVec.toNat]
  exact if_congr (signed_lt_iff a b) rfl rfl

theorem sltu_toNat (a b : Word) :
    sltu a.toNat b.toNat = (if a.ult b then 1 else 0 : Word).toNat := by
  rw [sltu, apply_ite BitVec.toNat]
  exact if_congr BitVec.ult_iff_toNat_lt.symm rfl rfl

theorem arith_toNat (f : AluOp) (a b : Word) :
    arith f a.toNat b.toNat = (f.eval a b).toNat := by
  cases f with
  | add => exact wrap_add_toNat a b
  | sub => exact wrap_sub_toNat a b
  | sll => exact sll_toNat a b
  | slt => exact slt_toNat a b
  | sltu => exact sltu_toNat a b
  | xor => exact (BitVec.toNat_xor a b).symm
  | srl => exact srl_toNat a b
  | sra => exact sra_toNat a b
  | or => exact (BitVec.toNat_or a b).symm
  | and => exact (BitVec.toNat_and a b).symm

theorem taken_iff (cond : Condition) (a b : Word) :
    taken cond a.toNat b.toNat ↔ cond.holds a b = true := by
  cases cond with
  | eq => simp [taken, Condition.holds, BitVec.toNat_inj]
  | ne => simp [taken, Condition.holds, BitVec.toNat_inj]
  | lt => exact signed_lt_iff a b
  | ge =>
    rw [Condition.holds, BitVec.sle, decide_eq_true_iff, taken, signed_toNat (by omega),
      signed_toNat (by omega)]
  | ltu => exact BitVec.ult_iff_toNat_lt.symm
  | geu => simp [taken, Condition.holds, BitVec.ule]

end Manual

end RiscHart
