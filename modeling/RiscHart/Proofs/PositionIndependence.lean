import RiscHart.Proofs.Commutation

/-!
# Data do not depend on the program counter

Apart from jumps that link and from `auipc`, an instruction neither stores the program counter nor
computes with it, and where it goes on is counted from where it stands. A run of such instructions
can therefore be moved: it goes through the same registers and the same memory, at program counters
that are all moved by the same distance.
-/

namespace RiscHart

/-- A hart whose program counter is moved on by `d`, and which is otherwise the same. -/
def Hart.shift (d : Word) (h : Hart) : Hart := h.jump (h.pc + d)

def Effect.shift (d : Word) (e : Effect) : Effect := { e with next := e.next + d }

/-- An address counted from the program counter moves with it. -/
theorem Hart.pc_shift_add (h : Hart) (d a : Word) : (h.shift d).pc + a = h.pc + a + d := by
  change h.pc + d + a = h.pc + a + d
  rw [BitVec.add_assoc, BitVec.add_comm d, ← BitVec.add_assoc]

theorem Hart.following_shift (h : Hart) (d : Word) : (h.shift d).following = h.following + d :=
  h.pc_shift_add d _

namespace Instr

/-- Whether the program counter shows in nothing but the next program counter. -/
def isRelocatable : Instr → Bool
  | jal _ _ | jalr _ _ _ | auipc _ _ => false
  | _ => true

theorem effect_shift_of_isStraight {i : Instr} (hi : i.isStraight) (h : Hart) (d : Word) :
    i.effect (h.shift d) = (i.effect h).map (Effect.shift d) := by
  rw [Hart.shift, effect_jump hi]
  cases he : i.effect h with
  | error err => rfl
  | ok e =>
    have hnext : (h.jump (h.pc + d)).following = e.next + d := by
      rw [next_of_effect hi he]
      exact h.following_shift d
    exact congrArg (fun next => Except.ok { e with next }) hnext

theorem effect_shift {i : Instr} (hi : i.isRelocatable) (h : Hart) (d : Word) :
    i.effect (h.shift d) = (i.effect h).map (Effect.shift d) := by
  cases i with
  | branch cond rs1 rs2 half =>
    rw [effect, h.pc_shift_add, h.following_shift, ← apply_ite (· + d)]
    rfl
  | jal _ _ | jalr _ _ _ | auipc _ _ => cases hi
  | _ => exact effect_shift_of_isStraight rfl h d

theorem effect_jal_shift (h : Hart) (d : Word) (rd : Reg) (half : BitVec 20) :
    (jal rd half).effect (h.shift d) =
      .ok { register := some (rd, h.following + d), next := h.pc + Imm.jump half + d } := by
  rw [effect, h.pc_shift_add, h.following_shift]

theorem effect_auipc_shift (h : Hart) (d : Word) (rd : Reg) (value : BitVec 20) :
    (auipc rd value).effect (h.shift d) =
      .ok { register := some (rd, h.pc + Imm.upper value + d), next := h.following + d } := by
  rw [effect, h.pc_shift_add, h.following_shift]

theorem effect_jalr_shift (h : Hart) (d : Word) (rd base : Reg) (offset : BitVec 12) :
    (jalr rd base offset).effect (h.shift d) =
      .ok { register := some (rd, h.following + d),
            next := (h.read base + Imm.short offset) &&& ~~~1 } := by
  rw [effect, h.following_shift]
  rfl

end Instr

namespace Hart

theorem step_shift {w : Word} (hw : ∀ i, decode w = .ok i → i.isRelocatable) (h : Hart)
    (d : Word) :
    (h.step w).result = ((h.shift d).step w).result ∧
      ((h.shift d).step w).hart = (h.step w).hart.shift d := by
  obtain ⟨e, hdec, hs⟩ | ⟨i, e, hdec, hi, hs⟩ | ⟨i, e, hdec, hi, hs⟩ := h.step_cases_effect w
  · rw [hs, (h.shift d).step_of_undecodable hdec]
    exact ⟨rfl, rfl⟩
  · have hi' : i.effect (h.shift d) = .error e := by
      rw [Instr.effect_shift (hw i hdec), hi]
      rfl
    rw [hs, step_of_fault hdec hi']
    exact ⟨rfl, rfl⟩
  · have hi' : i.effect (h.shift d) = .ok (e.shift d) := by
      rw [Instr.effect_shift (hw i hdec), hi]
      rfl
    rw [hs, step_of_effect hdec hi']
    exact ⟨rfl, rfl⟩

/-- A step whose instruction sets a register, and the same with the program counter moved, where the
value moves with it. -/
theorem step_shift_of_register (h : Hart) {d : Word} {w : Word} {i : Instr} {rd : Reg}
    {v next next' : Word} (hw : decode w = .ok i)
    (hi : i.effect h = .ok { register := some (rd, v), next })
    (hi' : i.effect (h.shift d) = .ok { register := some (rd, v + d), next := next' }) :
    (h.step w).result = .ok () ∧ ((h.shift d).step w).result = .ok () ∧
      (h.step w).hart.pc = next ∧ ((h.shift d).step w).hart.pc = next' ∧
      (h.registers.pinned rd = false →
        ((h.shift d).step w).hart.read rd = (h.step w).hart.read rd + d) := by
  rw [step_of_register hw hi, step_of_register hw hi']
  refine ⟨rfl, rfl, rfl, rfl, ?_⟩
  intro hfree
  have hread : (h.write rd v).read rd = v := Registers.read_write_self hfree v
  have hread' : ((h.shift d).write rd (v + d)).read rd = v + d :=
    Registers.read_write_self hfree (v + d)
  exact hread'.trans (congrArg (· + d) hread.symm)

end Hart

/-- A hart and the same hart at another program counter: words that are not jumps that link, nor
`auipc`, go through the same results, registers and memory on both, at program counters that stay
as far apart. `jal` and `auipc` set a value that is moved with the program counter, and so is the
next program counter; `jalr` sets a value that is moved, and goes to the same target. -/
theorem position_independent (d : Word) (s t : Hart) (hregisters : t.registers = s.registers)
    (hmemory : t.memory = s.memory) (hpc : t.pc = s.pc + d) :
    (∀ ws : List Word, (∀ w ∈ ws, ∀ i, decode w = .ok i → i.isRelocatable) →
      List.Forall₂ (fun o o' => o.result = o'.result ∧ o'.hart.registers = o.hart.registers ∧
          o'.hart.memory = o.hart.memory ∧ o'.hart.pc = o.hart.pc + d)
        (s.outcomes Hart.step ws) (t.outcomes Hart.step ws)) ∧
    (∀ w i rd, decode w = .ok i → (∃ half, i = .jal rd half) ∨ (∃ value, i = .auipc rd value) →
      (s.step w).result = .ok () ∧ (t.step w).result = .ok () ∧
        (t.step w).hart.pc = (s.step w).hart.pc + d ∧
        (s.registers.pinned rd = false →
          (t.step w).hart.read rd = (s.step w).hart.read rd + d)) ∧
    (∀ w rd base offset, decode w = .ok (.jalr rd base offset) →
      (s.step w).result = .ok () ∧ (t.step w).result = .ok () ∧
        (t.step w).hart.pc = (s.step w).hart.pc ∧
        (s.registers.pinned rd = false →
          (t.step w).hart.read rd = (s.step w).hart.read rd + d)) := by
  obtain rfl : t = s.shift d := by
    cases t
    cases hregisters
    cases hmemory
    cases hpc
    rfl
  refine ⟨fun ws hws => ?_, ?_, ?_⟩
  · have hstep : ∀ h k w w', k = Hart.shift d h →
        (w = w' ∧ ∀ i, decode w = .ok i → i.isRelocatable) →
        (h.step w).result = (k.step w').result ∧ (k.step w').hart = (h.step w).hart.shift d := by
      rintro h _ w _ rfl ⟨rfl, hw⟩
      exact h.step_shift hw d
    have hwords : List.Forall₂ (fun w w' => w = w' ∧ ∀ i, decode w = .ok i → i.isRelocatable)
        ws ws := List.forall₂_same.mpr fun w hw => ⟨rfl, hws w hw⟩
    exact (Hart.forall₂_outcomes hstep rfl hwords).imp
      fun o o' ho => ⟨ho.1, by rw [ho.2]; rfl, by rw [ho.2]; rfl, by rw [ho.2]; rfl⟩
  · rintro w i rd hw (⟨half, rfl⟩ | ⟨value, rfl⟩)
    · obtain ⟨hok, hok', hpc, hpc', hread⟩ :=
        s.step_shift_of_register hw rfl (Instr.effect_jal_shift s d rd half)
      exact ⟨hok, hok', by rw [hpc', hpc], hread⟩
    · obtain ⟨hok, hok', hpc, hpc', hread⟩ :=
        s.step_shift_of_register hw rfl (Instr.effect_auipc_shift s d rd value)
      exact ⟨hok, hok', by rw [hpc', hpc], hread⟩
  · intro w rd base offset hw
    obtain ⟨hok, hok', hpc, hpc', hread⟩ :=
      s.step_shift_of_register hw rfl (Instr.effect_jalr_shift s d rd base offset)
    exact ⟨hok, hok', by rw [hpc', hpc], hread⟩

/-- A loop that counts `x5` down, at the end of the address space, and moved from there to its
beginning; and `auipc` and `jalr` at the same places. -/
theorem position_independent_loop :
    let s : Hart := ⟨⟨.hardwired, (Vector.replicate Reg.count 0).set 5 2⟩, 0xFFFFFFF8, ⟨#[]⟩⟩
    let t : Hart := { s with pc := 4 }
    let ws : List Word := [0xFFF28293#32, 0xFE029EE3#32, 0xFFF28293#32, 0xFE029EE3#32]
    (∀ w ∈ ws, ∀ i, decode w = .ok i → i.isRelocatable) ∧
      List.Forall₂ (fun o o' => o.result = o'.result ∧ o'.hart.registers = o.hart.registers ∧
          o'.hart.memory = o.hart.memory ∧ o'.hart.pc = o.hart.pc + 12)
        (s.outcomes Hart.step ws) (t.outcomes Hart.step ws) ∧
      decode 0x80000097#32 = .ok (.auipc 1 0x80000) ∧
      (t.step 0x80000097#32).hart.read 1 = (s.step 0x80000097#32).hart.read 1 + 12 ∧
      decode 0x00328167#32 = .ok (.jalr 2 5 3) ∧
      (t.step 0x00328167#32).hart.read 2 = (s.step 0x00328167#32).hart.read 2 + 12 ∧
      (t.step 0x00328167#32).hart.pc = (s.step 0x00328167#32).hart.pc := by
  intro s t ws
  have hws : ∀ w ∈ ws, ∀ i, decode w = .ok i → i.isRelocatable := by
    simp only [ws, List.forall_mem_cons]
    refine ⟨?_, ?_, ?_, ?_, nofun⟩
    all_goals
      rintro i ⟨⟩
      rfl
  have hauipc : decode 0x80000097#32 = .ok (.auipc 1 0x80000) := by rfl
  have hjalr : decode 0x00328167#32 = .ok (.jalr 2 5 3) := by rfl
  obtain ⟨hrun, hlink, hjump⟩ := position_independent 12 s t rfl rfl (by decide)
  obtain ⟨-, -, -, hread⟩ := hlink _ _ 1 hauipc (.inr ⟨_, rfl⟩)
  obtain ⟨-, -, hpc', hread'⟩ := hjump _ 2 5 3 hjalr
  exact ⟨hws, hrun ws hws, hauipc, hread rfl, hjalr, hread' rfl, hpc'⟩

end RiscHart
