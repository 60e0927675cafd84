import RiscHart.Proofs.AssemblyReader
import RiscHart.Proofs.Effects
import RiscHart.Proofs.ManualValues

/-!
# Operations with an immediate

Nine operations come in two forms, with an immediate and with a second register. The arithmetic
unit is given the whole immediate in its 32-bit form, also by a shift, whose immediate has a code
in front of the amount. A shift looks at the amount alone, which is the number its text shows. So
the two forms of an operation do the same if the second register holds what the immediate says.
-/

namespace RiscHart

/-- The operation on two registers whose form with an immediate this is. -/
def Op.registerForm? : Op → Option AluOp
  | imm f => some f.alu
  | shift f => some f.alu
  | _ => none

theorem AluOp.exists_shift {f : AluOp} (h : f.unit = .shifts) : ∃ g : ShiftOp, g.alu = f := by
  cases f with
  | sll => exact ⟨.sll, rfl⟩
  | srl => exact ⟨.srl, rfl⟩
  | sra => exact ⟨.sra, rfl⟩
  | _ => cases h

namespace ShiftOp

/-- A word moved by a number of places. -/
def move (a : Word) (n : Nat) : ShiftOp → Word
  | sll => a <<< n
  | srl => a >>> n
  | sra => a.sshiftRight n

theorem eval_alu (g : ShiftOp) (a b : Word) : g.alu.eval a b = g.move a (b.toNat % 32) := by
  rw [← toNat_and_shamtMask]
  cases g <;> rfl

/-- The code in front of the amount has no part in the result. -/
theorem eval_short (g : ShiftOp) (a : Word) (s : IFields) :
    g.alu.eval a (Imm.short s.imm) = g.move a s.shamt.toNat := by
  have hamount : (s.shamt.setWidth 32).toNat % 32 = s.shamt.toNat := by
    have hlt := s.shamt.isLt
    rw [BitVec.toNat_setWidth]
    omega
  rw [Hart.eval_shift]
  exact (g.eval_alu a _).trans (congrArg (g.move a) hamount)

end ShiftOp

namespace IFields

theorem eq_ofWord_of_decode {w : Word} {i : Instr} {s : IFields} (hw : decode w = .ok i)
    (hs : i.shape = .i s) : s = ofWord w := by
  have hread := (Shape.read_of_ofWord (ofWord_of_decode hw)).2
  rw [hs] at hread
  cases hread
  rfl

/-- The amount of a shift is in the place of a second register. -/
theorem shamt_ofWord (w : Word) : (ofWord w).shamt = w.extractLsb' 20 5 := by
  rw [shamt, ofWord, Field.get_immI]
  exact extractLsb'_nested w (by omega)

/-- Whether a word says what the immediate says to an operation: it is the value of the immediate,
or, for a shift, it has the amount in its lowest five bits. -/
def SuppliedBy (s : IFields) (f : AluOp) (v : Word) : Prop :=
  if f.unit = .shifts then v.toNat % 32 = s.shamt.toNat else v = Imm.short s.imm

instance (s : IFields) (f : AluOp) (v : Word) : Decidable (s.SuppliedBy f v) :=
  inferInstanceAs (Decidable (if f.unit = .shifts then _ = _ else _ = _))

theorem SuppliedBy.eval_eq {s : IFields} {f : AluOp} {v : Word} (hv : s.SuppliedBy f v)
    (a : Word) : f.eval a v = f.eval a (Imm.short s.imm) := by
  rw [SuppliedBy] at hv
  split at hv
  · next hf =>
    obtain ⟨g, rfl⟩ := AluOp.exists_shift hf
    rw [g.eval_short, g.eval_alu, hv]
  · rw [hv]

end IFields

namespace Instr

/-- An operation with an immediate shows its operands in the fields of its shape. -/
theorem cases_registerForm {i : Instr} {s : IFields} {f : AluOp} (hs : i.shape = .i s)
    (hf : i.op.registerForm? = some f) :
    (∃ g : ImmOp, f = g.alu ∧ i = .imm g s.rd s.rs1 s.imm) ∨
      ∃ g : ShiftOp, f = g.alu ∧ i = .shift g s.rd s.rs1 s.shamt ∧
        s.imm = g.alu.funct7 ++ s.shamt := by
  cases i with
  | imm g rd rs1 value =>
    cases hs
    cases hf
    exact .inl ⟨g, rfl, rfl⟩
  | shift g rd rs1 amount =>
    cases hs
    cases hf
    have hshamt : (g.alu.funct7 ++ amount).extractLsb' 0 5 = amount :=
      BitVec.extractLsb'_append_eq_right
    refine .inr ⟨g, rfl, ?_, ?_⟩
    · rw [IFields.shamt, hshamt]
    · rw [IFields.shamt, hshamt]
  | _ => cases hf

/-- Whatever the operation is, the arithmetic unit is given the whole immediate. -/
theorem effect_of_registerForm {i : Instr} {s : IFields} {f : AluOp} (hs : i.shape = .i s)
    (hf : i.op.registerForm? = some f) (h : Hart) :
    i.effect h = .ok { register := some (s.rd, f.eval (h.read s.rs1) (Imm.short s.imm)),
                       next := h.following } := by
  obtain ⟨g, rfl, rfl⟩ | ⟨g, rfl, rfl, -⟩ := cases_registerForm hs hf
  · rfl
  · rw [effect, Hart.eval_shift]
    rfl

end Instr

/-- The two forms of an operation do the same, whichever registers are used, if the second register
holds what the immediate says. What a shift moves by is the number in its text, which is in bits 20
to 24 of the word. -/
theorem immediate_form_eq_register_form {w : Word} {i : Instr} {s : IFields} {f : AluOp}
    (hw : decode w = .ok i) (hs : i.shape = .i s) (hf : i.op.registerForm? = some f) :
    (∀ h : Hart, (h.step w).result = .ok () ∧
      (h.step w).hart =
        (h.write s.rd (f.eval (h.read s.rs1) (Imm.short s.imm))).advance) ∧
    (∀ (w' : Word) (r : Reg) (h : Hart), decode w' = .ok (.alu f s.rd s.rs1 r) →
      s.SuppliedBy f (h.read r) →
      (h.step w').result = .ok () ∧ (h.step w').hart = (h.step w).hart) ∧
    ∀ g : ShiftOp, i.op = .shift g →
      disassemble w = g.alu.immediateMnemonic ++ " " ++
        (s.rd.abiName ++ ", " ++ s.rs1.abiName ++ ", " ++ Numeral.decimal s.shamt.toNat) ∧
      s.imm = g.alu.funct7 ++ s.shamt ∧ s.shamt = w.extractLsb' 20 5 ∧
      ∀ h : Hart, (h.step w).hart =
        (h.write s.rd (g.move (h.read s.rs1) s.shamt.toNat)).advance := by
  have hstep : ∀ h : Hart, h.step w = ⟨(h.write s.rd (f.eval (h.read s.rs1)
      (Imm.short s.imm))).advance, .ok (), [.executing h.pc i]⟩ :=
    fun h => Hart.step_of_register hw (Instr.effect_of_registerForm hs hf h)
  refine ⟨fun h => ?_, fun w' r h hw' hr => ?_, fun g hg => ?_⟩
  · rw [hstep]
    exact ⟨rfl, rfl⟩
  · have hstep' := Hart.step_of_register hw' (h := h) rfl
    rw [hstep, hstep', hr.eval_eq]
    exact ⟨rfl, rfl⟩
  · obtain ⟨g', -, rfl⟩ | ⟨g', rfl, rfl, himm⟩ := Instr.cases_registerForm hs hf
    · cases hg
    · cases hg
      have hshamt : s.shamt = w.extractLsb' 20 5 := by
        rw [IFields.eq_ofWord_of_decode hw hs, IFields.shamt_ofWord]
      refine ⟨disassemble_of_decode hw, himm, hshamt, fun h => ?_⟩
      rw [hstep, g.eval_short]

/-- An arithmetic shift in which one register is the destination and both operands. Only the lowest
five bits of it are the amount. -/
theorem immediate_form_eq_register_form_aliased :
    let h : Hart := ⟨⟨.hardwired, Vector.replicate Reg.count 0x8000001E⟩, 0, Memory.zeros 4⟩
    let s := IFields.ofWord 0x41E2D293#32
    decode 0x41E2D293#32 = .ok (.shift .sra 5 5 30) ∧
      decode 0x4052D2B3#32 = .ok (.alu .sra s.rd s.rs1 5) ∧ s.SuppliedBy .sra (h.read 5) ∧
      (h.step 0x4052D2B3#32).hart = (h.step 0x41E2D293#32).hart ∧
      (h.step 0x41E2D293#32).hart.read 5 = 0xFFFFFFFE#32 ∧
      disassemble 0x41E2D293#32 = "srai t0, t0, 30" := by
  intro h s
  have hw : decode 0x41E2D293#32 = .ok (.shift .sra 5 5 30) := by rfl
  have hw' : decode 0x4052D2B3#32 = .ok (.alu .sra s.rd s.rs1 5) := by rfl
  have hr : s.SuppliedBy .sra (h.read 5) := by decide
  obtain ⟨-, hforms, hshift⟩ := immediate_form_eq_register_form (s := s) hw rfl rfl
  obtain ⟨htext, -, -, hmove⟩ := hshift .sra rfl
  refine ⟨hw, hw', hr, (hforms _ 5 h hw' hr).2, ?_, htext.trans (by decide)⟩
  rw [hmove]
  decide

end RiscHart
