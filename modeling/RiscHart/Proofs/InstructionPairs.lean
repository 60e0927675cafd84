import RiscHart.Proofs.AssemblyLines
import RiscHart.Proofs.Effects

/-!
# Numbers of full width in two instructions

No immediate holds a whole word, so a word is split between an upper immediate and a short one. The
short one is signed, and the upper one is rounded to make up for it, so that the two add up to the
word whatever its bits are. One pair of instructions builds any constant in this way. Another pair
goes to any even address, relative to the program counter, and can be returned from.
-/

namespace RiscHart

/-- What of a number goes into the upper immediate. -/
def upperPart (n : Nat) : Nat := (n + 0x800) % 2 ^ 32 / 4096

/-- What of a number goes into the short immediate: its lowest twelve bits with their sign. -/
def lowerPart (n : Nat) : Int := signed 12 (n % 2 ^ 12)

theorem upperPart_lt (n : Nat) : upperPart n < 2 ^ 20 := by
  unfold upperPart
  omega

theorem fitsSigned_lowerPart (n : Nat) : FitsSigned 12 (lowerPart n) := by
  unfold FitsSigned lowerPart signed
  split <;> omega

/-- The upper part is one too large where the lower one is negative, and the sum wraps where that
carries out of the word. -/
theorem wrap_parts {n : Nat} (hn : n < 2 ^ 32) :
    wrap ((upperPart n * 2 ^ 12 : Nat) + lowerPart n) = n := by
  unfold wrap upperPart lowerPart signed
  split <;> omega

theorem Imm.upper_add_short (x : Word) :
    Imm.upper (.ofNat 20 (upperPart x.toNat)) + Imm.short (.ofInt 12 (lowerPart x.toNat)) = x := by
  have hupper : (BitVec.ofNat 20 (upperPart x.toNat)).toNat = upperPart x.toNat :=
    toNat_ofNat_of_lt (upperPart_lt _)
  have hlower : (BitVec.ofInt 12 (lowerPart x.toNat)).toInt = lowerPart x.toNat :=
    toInt_ofInt_of_fits (by omega) (fitsSigned_lowerPart _)
  apply BitVec.eq_of_toNat_eq
  rw [← wrap_add_toInt, toNat_upper, toInt_short, hupper, hlower, wrap_parts x.isLt]

namespace Hart

theorem following_of_pc_eq {h k : Hart} (hpc : k.pc = h.following) : k.following = h.pc + 8 := by
  rw [following, hpc, following, BitVec.add_assoc]
  rfl

/-- Two instructions behind each other that set one register each, the first without a jump. -/
theorem after_two_registers {h : Hart} {w₁ w₂ : Word} {i₁ i₂ : Instr} {r₁ r₂ : Reg}
    {v₁ v₂ next : Word} (hw₁ : decode w₁ = .ok i₁) (hw₂ : decode w₂ = .ok i₂)
    (h₁ : i₁.effect h = .ok { register := some (r₁, v₁), next := h.following })
    (h₂ : i₂.effect ((h.write r₁ v₁).jump h.following) =
      .ok { register := some (r₂, v₂), next }) :
    (h.step w₁).result = .ok () ∧ ((h.step w₁).hart.step w₂).result = .ok () ∧
      h.after [w₁, w₂] = ⟨(h.registers.write r₁ v₁).write r₂ v₂, next, h.memory⟩ := by
  have hfirst := step_of_register hw₁ h₁
  have hsecond := step_of_register hw₂ h₂
  have hafter : h.after [w₁, w₂] = ((h.step w₁).hart.step w₂).hart := rfl
  rw [hafter, hfirst, hsecond]
  exact ⟨rfl, rfl, rfl⟩

end Hart

/-- The upper part of a number put into a register, and then the lower part added to it, leave the
number there. Nothing else changes but the program counter. -/
theorem lui_addi_builds_constant {h : Hart} {rd : Reg} (hrd : h.registers.pinned rd = false)
    (k : Word) :
    let lui := Line.lui rd.toNat (upperPart k.toNat)
    let addi := Line.imm .add rd.toNat rd.toNat (lowerPart k.toNat)
    let h' := h.after [lui.word, addi.word]
    lui.Legal ∧ addi.Legal ∧ (h.step lui.word).result = .ok () ∧
      ((h.step lui.word).hart.step addi.word).result = .ok () ∧
      h' = ⟨h.registers.write rd k, h.pc + 8, h.memory⟩ ∧
      h'.read rd = k ∧ ∀ r, r ≠ rd → h'.read r = h.read r := by
  intro lui addi h'
  let upper := Imm.upper (.ofNat 20 (upperPart k.toNat))
  have hlui : decode lui.word = .ok (.lui rd (.ofNat 20 (upperPart k.toNat))) := by
    rw [Line.decode_word, Line.instr, Reg.ofNat_toNat]
  have haddi : decode addi.word = .ok (.imm .add rd rd (.ofInt 12 (lowerPart k.toNat))) := by
    rw [Line.decode_word, Line.instr, Reg.ofNat_toNat]
  have hsum : ImmOp.add.alu.eval upper (Imm.short (.ofInt 12 (lowerPart k.toNat))) = k :=
    Imm.upper_add_short k
  have hread : ((h.write rd upper).jump h.following).read rd = upper :=
    Registers.read_write_self hrd upper
  have hadd : (Instr.imm .add rd rd (.ofInt 12 (lowerPart k.toNat))).effect
      ((h.write rd upper).jump h.following) =
        .ok { register := some (rd, k), next := h.pc + 8 } := by
    rw [Instr.effect, hread, hsum, Hart.following_of_pc_eq (h := h) rfl]
  obtain ⟨hfirst, hsecond, hafter⟩ := Hart.after_two_registers hlui haddi rfl hadd
  have hend : h' = ⟨h.registers.write rd k, h.pc + 8, h.memory⟩ := by
    rw [← h.registers.write_write rd upper k]
    exact hafter
  refine ⟨⟨rd.isLt, upperPart_lt _⟩, ⟨rd.isLt, rd.isLt, fitsSigned_lowerPart _⟩, hfirst, hsecond,
    hend, ?_, ?_⟩
  · rw [hend]
    exact Registers.read_write_self hrd k
  · intro r hr
    rw [hend]
    exact h.registers.read_write_of_ne hr k

/-- A negative constant, for which the upper part wraps to zero, in a register that is not held at
zero. -/
theorem lui_addi_builds_constant_wrapped :
    let h : Hart := ⟨⟨.writable, Vector.replicate Reg.count 7⟩, 0xFFFFFFFC, Memory.zeros 4⟩
    h.registers.pinned 0 = false ∧ (Line.lui 0 (upperPart 0xFFFFFFFF)).word = 0x00000037#32 ∧
      (Line.imm .add 0 0 (lowerPart 0xFFFFFFFF)).word = 0xFFF00013#32 ∧
      (h.after [0x00000037#32, 0xFFF00013#32]).read 0 = 0xFFFFFFFF#32 ∧
      (h.after [0x00000037#32, 0xFFF00013#32]).pc = 4 := by
  intro h
  have hfree : h.registers.pinned 0 = false := rfl
  have hlui : (Line.lui 0 (upperPart 0xFFFFFFFF)).word = 0x00000037#32 := by rfl
  have haddi : (Line.imm .add 0 0 (lowerPart 0xFFFFFFFF)).word = 0xFFF00013#32 := by rfl
  obtain ⟨-, -, -, -, hend, hread, -⟩ := lui_addi_builds_constant hfree 0xFFFFFFFF#32
  exact ⟨hfree, hlui, haddi, hread, (congrArg Hart.pc hend).trans (by decide)⟩

theorem clear_bit_zero_of_two_dvd {x : Word} (hx : 2 ∣ x.toNat) : x &&& ~~~(1 : Word) = x := by
  apply BitVec.eq_of_toNat_eq
  rw [toNat_clear_bit_zero, Nat.div_mul_cancel hx]

/-- The upper part of the distance to an even target, added to the program counter, and then a jump
by the lower part from there go to the target and leave the address behind the two in the link
register. Whatever is run after that, if the link register holds this address again, a jump through
it goes there. -/
theorem far_call_returns {h : Hart} {target : Word} {t ra : Reg} (hpc : 2 ∣ h.pc.toNat)
    (htarget : 2 ∣ target.toNat) (ht : h.registers.pinned t = false)
    (hra : h.registers.pinned ra = false) :
    let distance := (target - h.pc).toNat
    let auipc := Line.auipc t.toNat (upperPart distance)
    let jalr := Line.jalr ra.toNat t.toNat (lowerPart distance)
    let ret := Line.jalr Reg.zero.toNat ra.toNat 0
    let h' := h.after [auipc.word, jalr.word]
    auipc.Legal ∧ jalr.Legal ∧ ret.Legal ∧ (h.step auipc.word).result = .ok () ∧
      ((h.step auipc.word).hart.step jalr.word).result = .ok () ∧
      h'.pc = target ∧ h'.read ra = h.pc + 8 ∧
      ∀ ws, (h'.after ws).read ra = h.pc + 8 →
        ((h'.after ws).step ret.word).result = .ok () ∧
          ((h'.after ws).step ret.word).hart.pc = h.pc + 8 := by
  intro distance auipc jalr ret h'
  let base := h.pc + Imm.upper (.ofNat 20 (upperPart distance))
  have hauipc : decode auipc.word = .ok (.auipc t (.ofNat 20 (upperPart distance))) := by
    rw [Line.decode_word, Line.instr, Reg.ofNat_toNat]
  have hjalr : decode jalr.word = .ok (.jalr ra t (.ofInt 12 (lowerPart distance))) := by
    rw [Line.decode_word, Line.instr, Reg.ofNat_toNat, Reg.ofNat_toNat]
  have hret : decode ret.word = .ok (.jalr Reg.zero ra 0) := by
    rw [Line.decode_word, Line.instr, Reg.ofNat_toNat, Reg.ofNat_toNat]
    rfl
  have hread : ((h.write t base).jump h.following).read t = base :=
    Registers.read_write_self ht base
  have hsum : base + Imm.short (.ofInt 12 (lowerPart distance)) = target := by
    rw [BitVec.add_assoc, Imm.upper_add_short, BitVec.add_comm, BitVec.sub_add_cancel]
  have hjump : (Instr.jalr ra t (.ofInt 12 (lowerPart distance))).effect
      ((h.write t base).jump h.following) =
        .ok { register := some (ra, h.pc + 8), next := target } := by
    rw [Instr.effect, hread, hsum, clear_bit_zero_of_two_dvd htarget,
      Hart.following_of_pc_eq (h := h) rfl]
  obtain ⟨hfirst, hsecond, hafter⟩ := Hart.after_two_registers hauipc hjalr rfl hjump
  have hregisters : h'.registers = (h.registers.write t base).write ra (h.pc + 8) :=
    congrArg Hart.registers hafter
  refine ⟨⟨t.isLt, upperPart_lt _⟩, ⟨ra.isLt, t.isLt, fitsSigned_lowerPart _⟩,
    ⟨Reg.zero.isLt, ra.isLt, by decide⟩, hfirst, hsecond, congrArg Hart.pc hafter, ?_, ?_⟩
  · have hra' := (h.registers.pinned_write t ra base).trans hra
    rw [Hart.read, hregisters, Registers.read_write_self hra']
  · intro ws hlink
    have heven : 2 ∣ (h.pc + 8).toNat := by
      rw [BitVec.toNat_add]
      change 2 ∣ (_ + 8) % 2 ^ 32
      omega
    have hzero : Imm.short 0 = 0#32 := rfl
    have hback : (Instr.jalr Reg.zero ra 0).effect (h'.after ws) =
        .ok { register := some (Reg.zero, (h'.after ws).following), next := h.pc + 8 } := by
      rw [Instr.effect, hlink, hzero, BitVec.add_zero, clear_bit_zero_of_two_dvd heven]
    rw [Hart.step_of_register hret hback]
    exact ⟨rfl, rfl⟩

/-- A call backwards past address zero through one register for both the base and the link. Behind
it stand words that change the link register and change it back, and one that is no instruction. -/
theorem far_call_returns_backwards :
    let h : Hart := ⟨Registers.clear .hardwired, 0x1000, Memory.zeros 4⟩
    let target : Word := 0xFFFFF800
    let ra : Reg := 1
    let ws : List Word := [0x00408093#32, 0x00000000#32, 0xFFC08093#32]
    let call := [(Line.auipc ra.toNat (upperPart (target - h.pc).toNat)).word,
      (Line.jalr ra.toNat ra.toNat (lowerPart (target - h.pc).toNat)).word]
    let ret := (Line.jalr Reg.zero.toNat ra.toNat 0).word
    2 ∣ h.pc.toNat ∧ 2 ∣ target.toNat ∧ h.registers.pinned ra = false ∧
      call = [0xFFFFF097#32, 0x800080E7#32] ∧ ret = 0x00008067#32 ∧
      (h.after call).pc = target ∧ ((h.after call).after ws).read ra = h.pc + 8 ∧
      (((h.after call).after ws).step ret).hart.pc = h.pc + 8 := by
  intro h target ra ws call ret
  have hpc : 2 ∣ h.pc.toNat := by decide
  have htarget : 2 ∣ target.toNat := by decide
  have hfree : h.registers.pinned ra = false := by decide
  have hcall : call = [0xFFFFF097#32, 0x800080E7#32] := by decide
  have hret : ret = 0x00008067#32 := by decide
  have hlink : ((h.after call).after ws).read ra = h.pc + 8 := by decide
  obtain ⟨-, -, -, -, -, hgo, -, hback⟩ := far_call_returns hpc htarget hfree hfree
  exact ⟨hpc, htarget, hfree, hcall, hret, hgo, hlink, (hback ws hlink).2⟩

end RiscHart
