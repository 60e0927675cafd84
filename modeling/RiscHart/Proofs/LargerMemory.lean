import RiscHart.Proofs.Operands

/-!
# A larger memory makes no difference

A run that does not fault goes on in the same way when bytes are added behind the end of the
memory. Every access it makes lies below the old end, so it neither sees the new bytes nor changes
them.
-/

namespace RiscHart

namespace Hart

/-- The second hart shows the same as the first, and its memory starts with that of the first. -/
structure Within (s t : Hart) : Prop where
  zero : s.registers.zero = t.registers.zero
  read : ∀ r, s.read r = t.read r
  pc : s.pc = t.pc
  capacity : s.memory.capacity ≤ t.memory.capacity
  byte : ∀ b, b < s.memory.capacity → s.memory.byte b = t.memory.byte b

namespace Within

variable {s t : Hart}

theorem covers (hst : s.Within t) (i : Instr) : s.Covers i t :=
  ⟨fun r _ => hst.read r, hst.pc, hst.capacity, fun _ hlt b hb => hst.byte b (hlt b hb)⟩

theorem commit (hst : s.Within t) {e : Effect} (he : e.FitsIn s.memory.capacity) :
    (s.commit e).Within (t.commit e) where
  zero := by rw [zero_commit, zero_commit, hst.zero]
  read r := by
    have hpinned : ∀ r, s.registers.pinned r = t.registers.pinned r := fun r => by
      rw [Registers.pinned, Registers.pinned, hst.zero]
    simp only [read_commit, hpinned, hst.read]
  pc := rfl
  capacity := by
    rw [capacity_commit, capacity_commit]
    exact hst.capacity
  byte b hb := by
    have he' : e.FitsIn t.memory.capacity := fun a data hs => (he a data hs).trans hst.capacity
    rw [capacity_commit] at hb
    rw [byte_commit s he, byte_commit t he', hst.byte b hb]

end Within

/-- An effect below an address leaves the bytes from there on. -/
theorem byte_commit_of_le {h : Hart} {e : Effect} {c b : Nat} (he : e.FitsIn c)
    (hc : c ≤ h.memory.capacity) (hb : c ≤ b) : (h.commit e).memory.byte b = h.memory.byte b := by
  rw [byte_commit h fun a data hs => (he a data hs).trans hc]
  cases hs : e.stored with
  | none => rfl
  | some p =>
    have hle := he p.1 p.2 hs
    exact if_neg (by omega)

/-- What a run keeps that starts with `s₀` on the one side and with `t₀` on the other. -/
structure WithinFrom (s₀ t₀ s t : Hart) : Prop where
  within : s.Within t
  small : s.memory.capacity = s₀.memory.capacity
  large : t.memory.capacity = t₀.memory.capacity
  beyond : ∀ b, s₀.memory.capacity ≤ b → t.memory.byte b = t₀.memory.byte b

theorem WithinFrom.step {s₀ t₀ s t : Hart} (hst : WithinFrom s₀ t₀ s t) {w : Word}
    (hok : ∀ e, (s.step w).result ≠ .error (.memory e)) :
    (s.step w).result = (t.step w).result ∧ WithinFrom s₀ t₀ (s.step w).hart (t.step w).hart := by
  obtain ⟨e, hw, hs⟩ | ⟨i, e, -, -, hs⟩ | ⟨i, e, hw, hi, hs⟩ := s.step_cases_effect w
  · rw [hs, t.step_of_undecodable hw]
    exact ⟨rfl, hst⟩
  · rw [hs] at hok
    exact absurd rfl (hok e)
  · have hfits := Instr.fitsIn_of_effect hi
    rw [hs, step_of_effect hw ((hst.within.covers i).effect hi)]
    refine ⟨rfl, hst.within.commit hfits, ?_, ?_, fun b hb => ?_⟩
    · rw [capacity_commit, hst.small]
    · rw [capacity_commit, hst.large]
    · rw [byte_commit_of_le hfits hst.within.capacity (hst.small.trans_le hb), hst.beyond b hb]

end Hart

/-- A run without memory faults, and the same words on a larger memory: step by step the outcomes,
the registers and the program counter are the same, the larger memory starts with the smaller one,
and the bytes behind that are as they were. -/
theorem larger_memory_same_run {s t : Hart} (hst : s.Within t) {ws : List Word}
    (hws : ∀ o ∈ s.outcomes Hart.step ws, ∀ e, o.result ≠ .error (.memory e)) :
    List.Forall₂ (fun o o' => o.result = o'.result ∧ o.hart.Within o'.hart ∧
        o.hart.memory.capacity = s.memory.capacity ∧ o'.hart.memory.capacity = t.memory.capacity ∧
        ∀ b, s.memory.capacity ≤ b → o'.hart.memory.byte b = t.memory.byte b)
      (s.outcomes Hart.step ws) (t.outcomes Hart.step ws) := by
  have hstep : ∀ s' t' w w', Hart.WithinFrom s t s' t' → w = w' →
      (∀ e, (s'.step w).result ≠ .error (.memory e)) →
      (s'.step w).result = (t'.step w').result ∧
        Hart.WithinFrom s t (s'.step w).hart (t'.step w').hart := by
    rintro s' t' w _ hst' rfl hok
    exact hst'.step hok
  have hstart : Hart.WithinFrom s t s t := ⟨hst, rfl, rfl, fun _ _ => rfl⟩
  have hrun := Hart.forall₂_outcomes_of (Q := fun o => ∀ e, o.result ≠ .error (.memory e)) hstep
    hstart (List.forall₂_refl ws) hws
  exact hrun.imp fun o o' ho => ⟨ho.1, ho.2.within, ho.2.small, ho.2.large, ho.2.beyond⟩

/-- A store and a load that end where the smaller memory ends, and between them a word that is no
instruction. -/
theorem larger_memory_same_run_edge :
    let s : Hart := ⟨Registers.clear .writable, 0, ⟨#[1, 2, 3, 4, 5, 6]⟩⟩
    let t : Hart := ⟨Registers.clear .writable, 0, ⟨#[1, 2, 3, 4, 5, 6, 7, 8]⟩⟩
    let ws : List Word := [0x00102123#32, 0x00000000#32, 0x00405103#32]
    s.Within t ∧ (∀ o ∈ s.outcomes Hart.step ws, ∀ e, o.result ≠ .error (.memory e)) ∧
      List.Forall₂ (fun o o' => o.result = o'.result ∧ o.hart.Within o'.hart ∧
          o.hart.memory.capacity = 6 ∧ o'.hart.memory.capacity = 8 ∧
          ∀ b, 6 ≤ b → o'.hart.memory.byte b = t.memory.byte b)
        (s.outcomes Hart.step ws) (t.outcomes Hart.step ws) := by
  intro s t ws
  have hbyte : ∀ b, b < 6 → s.memory.byte b = t.memory.byte b := by decide
  have hst : s.Within t := ⟨rfl, fun _ => rfl, rfl, by decide, hbyte⟩
  have hws : ∀ o ∈ s.outcomes Hart.step ws, ∀ e, o.result ≠ .error (.memory e) := by
    simp only [ws, Hart.outcomes, List.forall_mem_cons]
    exact ⟨nofun, nofun, nofun, nofun⟩
  exact ⟨hst, hws, larger_memory_same_run hst hws⟩

end RiscHart
