import RiscHart.Proofs.Effects

/-!
# One policy for register zero by the other

A hart whose `x0` is hardwired behaves as one whose `x0` is writable and set to zero after each
step. Between two such harts only the slot of `x0` can differ, and only in the middle of a step,
when it is not read any more.
-/

namespace RiscHart

namespace Hart

/-- A step after which `x0` is set to zero. -/
def stepClearing (h : Hart) (w : Word) : Outcome :=
  { h.step w with hart := (h.step w).hart.write Reg.zero 0 }

/-- Two harts of different policies that agree on everything but `x0`. -/
structure AgreeBeyondZero (h k : Hart) : Prop where
  hardwired : h.registers.zero = .hardwired
  writable : k.registers.zero = .writable
  read : ∀ r, r ≠ Reg.zero → h.read r = k.read r
  pc : h.pc = k.pc
  memory : h.memory = k.memory

theorem read_zero_of_hardwired {h : Hart} (hh : h.registers.zero = .hardwired) :
    h.read Reg.zero = 0 := by
  have hp : h.registers.pinned Reg.zero = true := decide_eq_true ⟨rfl, hh⟩
  rw [read, Registers.read, if_pos hp]

theorem not_pinned_of_writable {k : Hart} (hk : k.registers.zero = .writable) (r : Reg) :
    k.registers.pinned r = false := by
  simp [Registers.pinned, hk]

theorem not_pinned_of_ne_zero (h : Hart) {r : Reg} (hr : r ≠ Reg.zero) :
    h.registers.pinned r = false := by
  simp [Registers.pinned, hr]

namespace AgreeBeyondZero

variable {h k : Hart}

theorem read_eq (hk : h.AgreeBeyondZero k) (hzero : k.read Reg.zero = 0) (r : Reg) :
    h.read r = k.read r := by
  by_cases hr : r = Reg.zero
  · rw [hr, hzero, read_zero_of_hardwired hk.hardwired]
  · exact hk.read r hr

theorem effect_eq (hk : h.AgreeBeyondZero k) (hzero : k.read Reg.zero = 0) (i : Instr) :
    i.effect h = i.effect k :=
  i.effect_congr (hk.read_eq hzero) hk.pc hk.memory

/-- The same effect on both harts can separate them at `x0` alone. -/
theorem commit (hk : h.AgreeBeyondZero k) (e : Effect) :
    (h.commit e).AgreeBeyondZero (k.commit e) where
  hardwired := (h.zero_commit e).trans hk.hardwired
  writable := (k.zero_commit e).trans hk.writable
  read s hs := by
    rw [read_commit, read_commit]
    cases e.register with
    | none => exact hk.read s hs
    | some p =>
      obtain ⟨r, v⟩ := p
      dsimp only
      -- The harts differ in whether `x0` is pinned, but `s` is another register.
      by_cases hr : s = r
      · subst hr
        rw [if_pos ⟨rfl, h.not_pinned_of_ne_zero hs⟩, if_pos ⟨rfl, k.not_pinned_of_ne_zero hs⟩]
      · rw [if_neg fun hn => hr hn.1, if_neg fun hn => hr hn.1]
        exact hk.read s hs
  pc := rfl
  memory := by
    unfold Hart.commit
    rw [hk.memory]

theorem clear (hk : h.AgreeBeyondZero k) : h.AgreeBeyondZero (k.write Reg.zero 0) where
  hardwired := hk.hardwired
  writable := (k.registers.zero_write Reg.zero 0).trans hk.writable
  read s hs := by
    rw [hk.read s hs]
    exact (k.registers.read_write_of_ne hs 0).symm
  pc := hk.pc
  memory := hk.memory

theorem read_clear (hk : h.AgreeBeyondZero k) : (k.write Reg.zero 0).read Reg.zero = 0 :=
  Registers.read_write_self (not_pinned_of_writable hk.writable _) 0

/-- One step of both harts ends alike, up to what is left in `x0`. -/
theorem step (hk : h.AgreeBeyondZero k) (hzero : k.read Reg.zero = 0) (w : Word) :
    (h.step w).result = (k.step w).result ∧
      (h.step w).hart.AgreeBeyondZero (k.step w).hart := by
  cases hw : decode w with
  | error e =>
    rw [h.step_of_undecodable hw, k.step_of_undecodable hw]
    exact ⟨rfl, hk⟩
  | ok i =>
    have heff := hk.effect_eq hzero i
    cases hi : i.effect h with
    | error e =>
      rw [step_of_fault hw hi, step_of_fault hw (heff.symm.trans hi)]
      exact ⟨rfl, hk⟩
    | ok e =>
      rw [step_of_effect hw hi, step_of_effect hw (heff.symm.trans hi)]
      exact ⟨rfl, hk.commit e⟩

end AgreeBeyondZero

end Hart

/-- Two outcomes of the same kind, on harts that show the same. -/
structure Outcome.Alike (o p : Outcome) : Prop where
  result : o.result = p.result
  read : ∀ r, o.hart.read r = p.hart.read r
  pc : o.hart.pc = p.hart.pc
  memory : o.hart.memory = p.hart.memory
  zero : o.hart.read Reg.zero = 0

/-- From two harts that agree and show zero in `x0`, all words that are given lead to the same
outcomes, when `x0` is hardwired in the one and cleared after each step in the other. -/
theorem hardwired_eq_writable_cleared {h k : Hart} (hk : h.AgreeBeyondZero k)
    (hzero : k.read Reg.zero = 0) (ws : List Word) :
    List.Forall₂ Outcome.Alike (h.outcomes Hart.step ws) (k.outcomes Hart.stepClearing ws) := by
  have hstep : ∀ h k w w', (Hart.AgreeBeyondZero h k ∧ k.read Reg.zero = 0) → w = w' →
      (h.step w).result = (k.stepClearing w').result ∧
        (Hart.AgreeBeyondZero (h.step w).hart (k.stepClearing w').hart ∧
          (k.stepClearing w').hart.read Reg.zero = 0) := by
    rintro h k w _ ⟨hk, hzero⟩ rfl
    obtain ⟨hres, hnext⟩ := hk.step hzero w
    exact ⟨hres, hnext.clear, hnext.read_clear⟩
  refine (Hart.forall₂_outcomes hstep ⟨hk, hzero⟩ (List.forall₂_refl ws)).imp ?_
  rintro o p ⟨hres, hop, hz⟩
  exact ⟨hres, hop.read_eq hz, hop.pc, hop.memory, Hart.read_zero_of_hardwired hop.hardwired⟩

/-- A value hidden in the slot of the hardwired `x0`, and words that write to `x0` and jump from
an address based on it. -/
theorem hardwired_eq_writable_cleared_hidden :
    let h : Hart := ⟨⟨.hardwired, Vector.replicate Reg.count 7⟩, 0, Memory.zeros 8⟩
    let k : Hart := ⟨⟨.writable, (Vector.replicate Reg.count 7).set 0 0⟩, 0, Memory.zeros 8⟩
    let ws : List Word := [0x00500013#32, 0x004000E7#32, 0x00002003#32]
    h.AgreeBeyondZero k ∧ k.read Reg.zero = 0 ∧
      List.Forall₂ Outcome.Alike (h.outcomes Hart.step ws) (k.outcomes Hart.stepClearing ws) := by
  intro h k ws
  have hread : ∀ r, r ≠ Reg.zero → h.read r = k.read r := by decide
  have hk : h.AgreeBeyondZero k := ⟨rfl, rfl, hread, rfl, rfl⟩
  have hzero : k.read Reg.zero = 0 := by decide
  exact ⟨hk, hzero, hardwired_eq_writable_cleared hk hzero ws⟩

end RiscHart
