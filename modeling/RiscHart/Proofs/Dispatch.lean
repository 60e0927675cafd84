import RiscHart.Hart.Basic
import RiscHart.Proofs.Classification

/-!
# Dispatching on an operation and a format

Execution without the type of legal instructions: there is an operation, a format, and the word,
from which register numbers and immediates are cut out as whole words. Two faults appear that
legal instructions rule out: the operation may belong to another format, and a number may select
no register. The second never happens, and the first does not for what decoding gives.
-/

namespace RiscHart

/-- What keeps a dispatch from going through. -/
inductive Fault where
  /-- The operation does not belong to the format. -/
  | mismatch
  /-- A number was used that selects no register. -/
  | noRegister (n : Nat)
  | memory (e : MemoryError)
  deriving DecidableEq

def Op.format : Op → Format
  | alu _ => .r
  | imm _ | shift _ | load _ | jalr => .i
  | store _ => .s
  | branch _ => .b
  | lui | auipc => .u
  | jal => .j

theorem Instr.format_op (i : Instr) : i.op.format = i.shape.format := by cases i <;> rfl

namespace Hart

/-- Reads the register whose number is in a field. -/
def readField (h : Hart) (f : Field) (w : Word) : Except Fault Word :=
  match h.registers.read? (f.extract w).toNat with
  | some v => .ok v
  | none => .error (.noRegister (f.extract w).toNat)

/-- Writes the register whose number is in a field. -/
def writeField (h : Hart) (f : Field) (w v : Word) : Except Fault Hart :=
  match h.registers.write? (f.extract w).toNat v with
  | some g => .ok { h with registers := g }
  | none => .error (.noRegister (f.extract w).toNat)

/-- An operation of the arithmetic unit on a register and the whole immediate. -/
def dispatchImm (h : Hart) (w : Word) (f : AluOp) : Except Fault Hart := do
  let a ← h.readField .rs1 w
  let h' ← h.writeField .rd w (f.eval a (signExtend Imm.shortBits (Field.immI.extract w)))
  return h'.advance

def dispatch (h : Hart) (w : Word) : Op → Format → Except Fault Hart
  | .alu f, .r => do
    let a ← h.readField .rs1 w
    let b ← h.readField .rs2 w
    let h' ← h.writeField .rd w (f.eval a b)
    return h'.advance
  | .imm f, .i => h.dispatchImm w f.alu
  | .shift f, .i => h.dispatchImm w f.alu
  | .load f, .i => do
    let base ← h.readField .rs1 w
    let offset := signExtend Imm.shortBits (Field.immI.extract w)
    let v ← (h.memory.loadWord f (base + offset)).mapError .memory
    let h' ← h.writeField .rd w v
    return h'.advance
  | .store width, .s => do
    let base ← h.readField .rs1 w
    let source ← h.readField .rs2 w
    let offset := Imm.assembleS (Field.immS11_5.extract w) (Field.immS4_0.extract w)
    let m ← (h.memory.storeWord width (base + offset) source).mapError .memory
    return { h with memory := m }.advance
  | .branch cond, .b => do
    let a ← h.readField .rs1 w
    let b ← h.readField .rs2 w
    let offset := Imm.assembleB (Field.immB12.extract w) (Field.immB11.extract w)
      (Field.immB10_5.extract w) (Field.immB4_1.extract w)
    return if cond.holds a b then h.jump (h.pc + offset) else h.advance
  | .jal, .j => do
    let offset := Imm.assembleJ (Field.immJ20.extract w) (Field.immJ19_12.extract w)
      (Field.immJ11.extract w) (Field.immJ10_1.extract w)
    let h' ← h.writeField .rd w h.following
    return h'.jump (h.pc + offset)
  | .jalr, .i => do
    let base ← h.readField .rs1 w
    let offset := signExtend Imm.shortBits (Field.immI.extract w)
    let h' ← h.writeField .rd w h.following
    return h'.jump ((base + offset) &&& ~~~1)
  | .lui, .u => do
    let h' ← h.writeField .rd w (Imm.assembleU (Field.immU.extract w))
    return h'.advance
  | .auipc, .u => do
    let h' ← h.writeField .rd w (h.pc + Imm.assembleU (Field.immU.extract w))
    return h'.advance
  | _, _ => .error .mismatch

end Hart

/-! The register fields of a word have five bits, so each of them names a register. -/

theorem Field.ofNat?_extract {f : Field} (hf : f.width = 5) (w : Word) :
    Reg.ofNat? (f.extract w).toNat = some (w.extractLsb' f.low 5) := by
  have hwidth : f.width ≤ 32 := by omega
  have hget : (f.extract w).toNat = (w.extractLsb' f.low 5).toNat := by
    rw [← f.setWidth_get w, BitVec.toNat_setWidth_of_le hwidth, f.get_eq_extractLsb', hf]
  rw [hget, Reg.ofNat?_toNat]

namespace Hart

theorem readField_eq (h : Hart) {f : Field} (hf : f.width = 5) (w : Word) :
    h.readField f w = .ok (h.read (w.extractLsb' f.low 5)) := by
  rw [readField, Registers.read?, Field.ofNat?_extract hf]
  rfl

theorem writeField_eq (h : Hart) {f : Field} (hf : f.width = 5) (w v : Word) :
    h.writeField f w v = .ok (h.write (w.extractLsb' f.low 5) v) := by
  rw [writeField, Registers.write?, Field.ofNat?_extract hf]
  rfl

theorem readField_rs1 (h : Hart) (w : Word) :
    h.readField .rs1 w = .ok (h.read (Field.rs1.get w)) := by
  rw [h.readField_eq rfl, Field.get_rs1]

theorem readField_rs2 (h : Hart) (w : Word) :
    h.readField .rs2 w = .ok (h.read (Field.rs2.get w)) := by
  rw [h.readField_eq rfl, Field.get_rs2]

theorem writeField_rd (h : Hart) (w v : Word) :
    h.writeField .rd w v = .ok (h.write (Field.rd.get w) v) := by
  rw [h.writeField_eq rfl, Field.get_rd]

theorem dispatchImm_eq (h : Hart) (w : Word) (f : AluOp) :
    h.dispatchImm w f = .ok (h.write (Field.rd.get w)
      (f.eval (h.read (Field.rs1.get w)) (Imm.short (IFields.ofWord w).imm))).advance := by
  rw [dispatchImm, readField_rs1]
  exact congrArg (· >>= fun h' => Except.ok h'.advance) (h.writeField_rd w _)

/-- A shift looks at the amount alone, which is the low end of the immediate. -/
theorem eval_shift (f : ShiftOp) (a : Word) (imm : BitVec 12) :
    f.alu.eval a (Imm.short imm) = f.alu.eval a ((imm.extractLsb' 0 5).setWidth 32) := by
  have hamount : Imm.short imm &&& shamtMask =
      (imm.extractLsb' 0 5).setWidth 32 &&& shamtMask := by
    have hmask : shamtMask = lowMask 5 := rfl
    apply BitVec.eq_of_getLsbD_eq
    intro k hk
    simp only [hmask, Imm.short, BitVec.getLsbD_and, getLsbD_lowMask, BitVec.getLsbD_signExtend,
      BitVec.getLsbD_setWidth, BitVec.getLsbD_extractLsb', Nat.zero_add]
    by_cases h5 : k < 5
    · simp [h5, show k < 12 by omega]
    · simp [h5]
  cases f with
  | sll => exact congrArg (a <<< ·) hamount
  | srl => exact congrArg (a >>> ·) hamount
  | sra => exact congrArg (fun b => a.sshiftRight b.toNat) hamount

theorem bind_mapError {α : Type} (r : Except MemoryError α) (next : α → Hart) :
    (r.mapError Fault.memory >>= fun v => .ok (next v)) = (r.map next).mapError Fault.memory := by
  cases r <;> rfl

/-- With the right format a dispatch is the instruction whose operands stand in the word. -/
theorem dispatch_format (h : Hart) (w : Word) (o : Op) :
    h.dispatch w o o.format = ((o.instr w).apply h).mapError .memory := by
  cases o with
  | alu f =>
    simp only [Op.format, dispatch, readField_rs1, readField_rs2, writeField_rd]
    rfl
  | imm f => exact h.dispatchImm_eq w f.alu
  | shift f =>
    refine (h.dispatchImm_eq w f.alu).trans ?_
    rw [eval_shift]
    rfl
  | load f =>
    simp only [Op.format, dispatch, readField_rs1, writeField_rd]
    exact bind_mapError _ fun v => (h.write (Field.rd.get w) v).advance
  | store width =>
    simp only [Op.format, dispatch, readField_rs1, readField_rs2]
    exact bind_mapError _ fun m => { h with memory := m }.advance
  | branch cond =>
    simp only [Op.format, dispatch, readField_rs1, readField_rs2, Op.instr, Instr.apply]
    by_cases hc : cond.holds (h.read (Field.rs1.get w)) (h.read (Field.rs2.get w)) = true
    · rw [if_pos hc]
      exact congrArg Except.ok (if_pos hc)
    · rw [if_neg hc]
      exact congrArg Except.ok (if_neg hc)
  | jal =>
    simp only [Op.format, dispatch, writeField_rd]
    rfl
  | jalr =>
    simp only [Op.format, dispatch, readField_rs1, writeField_rd]
    rfl
  | lui =>
    simp only [Op.format, dispatch, writeField_rd]
    rfl
  | auipc =>
    simp only [Op.format, dispatch, writeField_rd]
    rfl

/-- Only a format of another operation is a mismatch. -/
theorem dispatch_mismatch_iff (h : Hart) (w : Word) (o : Op) (f : Format) :
    h.dispatch w o f = .error .mismatch ↔ f ≠ o.format := by
  constructor
  · rintro hf rfl
    rw [dispatch_format] at hf
    cases ha : (o.instr w).apply h with
    | ok h' =>
      rw [ha] at hf
      cases hf
    | error e =>
      rw [ha] at hf
      cases hf
  · intro hf
    cases o <;> cases f <;> simp only [Op.format, ne_eq, not_true_eq_false] at hf <;> rfl

/-- What decoding gives is dispatched without a mismatch and without a missing register. -/
theorem dispatch_of_decode {w : Word} {i : Instr} (hi : decode w = .ok i) (h : Hart) :
    h.dispatch w i.op i.shape.format = (i.apply h).mapError .memory := by
  rw [← i.format_op, dispatch_format, instr_of_decode hi]

end Hart

end RiscHart
