import RiscHart.Proofs.AssemblyLines
import RiscHart.Proofs.Effects

/-!
# The program counter and its lowest bit

Instructions are four bytes long and branch and jump offsets are even, so going on and jumping by
an offset leave the lowest bit of the program counter as it is. A jump to an address in a register
clears that bit. There is no other way to change it.
-/

namespace RiscHart

theorem two_dvd_add_of_two_dvd_toInt {a b : Word} (hb : 2 ∣ b.toInt) :
    2 ∣ (a + b).toNat ↔ 2 ∣ a.toNat := by
  rw [← wrap_add_toInt, wrap]
  omega

namespace Imm

theorem two_dvd_branch (half : BitVec 12) : 2 ∣ (branch half).toInt := by
  rw [toInt_branch]
  exact two_dvd_toInt_append half

theorem two_dvd_jump (half : BitVec 20) : 2 ∣ (jump half).toInt := by
  rw [toInt_jump]
  exact two_dvd_toInt_append half

end Imm

namespace Instr

/-- Whether an instruction jumps to an address that it takes from a register. -/
def isRegisterJump : Instr → Bool
  | jalr _ _ _ => true
  | _ => false

end Instr

namespace Hart

theorem two_dvd_following (h : Hart) : 2 ∣ h.following.toNat ↔ 2 ∣ h.pc.toNat :=
  two_dvd_add_of_two_dvd_toInt (by decide)

/-- An instruction that does not take its target from a register keeps the lowest bit. -/
theorem two_dvd_next_of_effect {h : Hart} {i : Instr} {e : Effect} (hi : i.effect h = .ok e)
    (hj : i.isRegisterJump = false) : 2 ∣ e.next.toNat ↔ 2 ∣ h.pc.toNat := by
  cases i with
  | load f rd base offset =>
    obtain ⟨-, rfl⟩ := Instr.effect_load_eq_ok_iff.mp hi
    exact h.two_dvd_following
  | store width source base offset =>
    obtain ⟨-, rfl⟩ := Instr.effect_store_eq_ok_iff.mp hi
    exact h.two_dvd_following
  | branch cond rs1 rs2 half =>
    cases hi
    by_cases hc : cond.holds (h.read rs1) (h.read rs2) = true
    · rw [if_pos hc]
      exact two_dvd_add_of_two_dvd_toInt (Imm.two_dvd_branch half)
    · rw [if_neg hc]
      exact h.two_dvd_following
  | jal rd half =>
    cases hi
    exact two_dvd_add_of_two_dvd_toInt (Imm.two_dvd_jump half)
  | jalr rd base offset => cases hj
  | _ =>
    cases hi
    exact h.two_dvd_following

theorem two_dvd_next_of_isRegisterJump {h : Hart} {i : Instr} {e : Effect}
    (hi : i.effect h = .ok e) (hj : i.isRegisterJump) : 2 ∣ e.next.toNat := by
  cases i with
  | jalr rd base offset =>
    cases hi
    rw [toNat_clear_bit_zero]
    exact Nat.dvd_mul_left 2 _
  | _ => cases hj

/-- A step on a jump to an address in a register, which works. -/
def JumpsByRegister (h : Hart) (w : Word) : Prop :=
  (∃ rd base offset, decode w = .ok (.jalr rd base offset)) ∧ (h.step w).result = .ok ()

theorem jumpsByRegister_iff {h : Hart} {w : Word} {i : Instr} (hw : decode w = .ok i)
    (hok : (h.step w).result = .ok ()) : h.JumpsByRegister w ↔ i.isRegisterJump := by
  rw [JumpsByRegister, hw]
  cases i <;> simp [hok, Instr.isRegisterJump]

theorem two_dvd_pc_step (h : Hart) (w : Word) :
    2 ∣ (h.step w).hart.pc.toNat ↔ 2 ∣ h.pc.toNat ∨ h.JumpsByRegister w := by
  obtain ⟨e, -, hs⟩ | ⟨i, e, -, -, hs⟩ | ⟨i, e, hw, hi, hs⟩ := h.step_cases_effect w
  · simp [JumpsByRegister, hs]
  · simp [JumpsByRegister, hs]
  · have hok : (h.step w).result = .ok () := by rw [hs]
    rw [jumpsByRegister_iff hw hok, hs]
    change 2 ∣ e.next.toNat ↔ _
    cases hj : i.isRegisterJump with
    | true => exact iff_of_true (two_dvd_next_of_isRegisterJump hi hj) (.inr rfl)
    | false => simp [two_dvd_next_of_effect hi hj]

end Hart

/-- After any number of steps the program counter is even if it was even at first, or if one of
these steps was a jump to an address in a register that worked; otherwise it is odd, as it was. -/
theorem even_pc_of_run (h : Hart) (ws : List Word) (n : Nat) :
    2 ∣ (h.after (ws.take n)).pc.toNat ↔
      2 ∣ h.pc.toNat ∨
        ∃ m < n, ∃ w, ws[m]? = some w ∧ (h.after (ws.take m)).JumpsByRegister w := by
  induction ws generalizing h n with
  | nil => simp [Hart.after]
  | cons w ws ih =>
    cases n with
    | zero => simp [Hart.after]
    | succ n =>
      -- The first step stands apart, and the others are those of the rest from where it ends.
      have hrest := ih (h.step w).hart n
      rw [h.two_dvd_pc_step, or_assoc] at hrest
      refine hrest.trans (or_congr_right ?_)
      rw [Nat.exists_lt_succ_left]
      refine or_congr ?_ Iff.rfl
      simp [Hart.after]

example :
    let h := (Hart.clear .hardwired 0).jump 7
    (h.after [0x00000013#32]).pc = 11 ∧ (h.after [0x00000013#32, 0x00300067#32]).pc = 2 := by
  decide

end RiscHart
