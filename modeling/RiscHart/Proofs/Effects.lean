import Mathlib.Data.List.Forall2
import RiscHart.Proofs.StepOutcome

/-!
# What an instruction changes

An instruction that takes effect sets the program counter and, besides that, changes one register
or one run of bytes at most. `Instr.effect` is this change as a value, or the fault instead of it,
and a step does no more than commit the effect of its instruction. Two harts that are given words
one after another stay related if each step keeps them related.
-/

namespace RiscHart

/-- All that an instruction changes. -/
structure Effect where
  register : Option (Reg × Word) := none
  /-- The bytes that are stored, behind the address of the first of them. -/
  stored : Option (Nat × List Byte) := none
  next : Word
  deriving DecidableEq

/-- The effect of an instruction on a hart in a given state. -/
def Instr.effect (h : Hart) : Instr → Except MemoryError Effect
  | alu f rd rs1 rs2 =>
    .ok { register := some (rd, f.eval (h.read rs1) (h.read rs2)), next := h.following }
  | imm f rd rs1 value =>
    .ok { register := some (rd, f.alu.eval (h.read rs1) (Imm.short value)), next := h.following }
  | shift f rd rs1 amount =>
    .ok { register := some (rd, f.alu.eval (h.read rs1) (amount.setWidth 32)),
          next := h.following }
  | load f rd base offset =>
    (h.memory.loadWord f (h.read base + Imm.short offset)).map fun v =>
      { register := some (rd, v), next := h.following }
  | store width source base offset =>
    let addr := h.read base + Imm.short offset
    if addr.toNat + width.bytes ≤ h.memory.capacity then
      .ok { stored := some (addr.toNat,
              LittleEndian.toBytes width.bytes ((h.read source).setWidth width.bits).toNat),
            next := h.following }
    else .error (.outOfBounds addr width.bytes h.memory.capacity)
  | branch cond rs1 rs2 half =>
    .ok { next :=
      if cond.holds (h.read rs1) (h.read rs2) then h.pc + Imm.branch half else h.following }
  | jal rd half => .ok { register := some (rd, h.following), next := h.pc + Imm.jump half }
  | jalr rd base offset =>
    .ok { register := some (rd, h.following),
          next := (h.read base + Imm.short offset) &&& ~~~1 }
  | lui rd value => .ok { register := some (rd, Imm.upper value), next := h.following }
  | auipc rd value =>
    .ok { register := some (rd, h.pc + Imm.upper value), next := h.following }

/-- Whether the bytes that an effect stores lie below a capacity. -/
def Effect.FitsIn (c : Nat) (e : Effect) : Prop :=
  ∀ a data, e.stored = some (a, data) → a + data.length ≤ c

namespace Hart

def commit (h : Hart) (e : Effect) : Hart where
  registers := match e.register with
    | some (r, v) => h.registers.write r v
    | none => h.registers
  pc := e.next
  memory := match e.stored with
    | some (a, data) => h.memory.put a data
    | none => h.memory

theorem zero_commit (h : Hart) (e : Effect) : (h.commit e).registers.zero = h.registers.zero := by
  obtain ⟨reg, stored, next⟩ := e
  cases reg with
  | none => rfl
  | some p => exact h.registers.zero_write p.1 p.2

/-- A register reads as what was written to it last, and the others read as before. -/
theorem read_commit (h : Hart) (e : Effect) (s : Reg) :
    (h.commit e).read s =
      match e.register with
      | some (r, v) => if s = r ∧ h.registers.pinned r = false then v else h.read s
      | none => h.read s := by
  obtain ⟨reg, stored, next⟩ := e
  cases reg with
  | none => rfl
  | some p => exact h.registers.read_write p.1 s p.2

theorem slot_commit (h : Hart) (e : Effect) (s : Reg) :
    (h.commit e).registers.slots[s.toFin] =
      match e.register with
      | some (r, v) =>
        if s = r ∧ h.registers.pinned r = false then v else h.registers.slots[s.toFin]
      | none => h.registers.slots[s.toFin] := by
  obtain ⟨reg, stored, next⟩ := e
  cases reg with
  | none => rfl
  | some p => exact h.registers.slot_write p.1 s p.2

theorem capacity_commit (h : Hart) (e : Effect) :
    (h.commit e).memory.capacity = h.memory.capacity := by
  obtain ⟨reg, stored, next⟩ := e
  cases stored with
  | none => rfl
  | some p => exact h.memory.capacity_put p.1 p.2

theorem byte_commit (h : Hart) {e : Effect} (he : e.FitsIn h.memory.capacity) (b : Nat) :
    (h.commit e).memory.byte b =
      match e.stored with
      | some (a, data) =>
        if a ≤ b ∧ b < a + data.length then data[b - a]?.getD 0 else h.memory.byte b
      | none => h.memory.byte b := by
  obtain ⟨reg, stored, next⟩ := e
  cases stored with
  | none => rfl
  | some p => exact h.memory.byte_put (he p.1 p.2 rfl) b

end Hart

namespace Instr

theorem effect_load (h : Hart) (f : LoadOp) (rd base : Reg) (offset : BitVec 12) :
    (load f rd base offset).effect h =
      let addr := h.read base + Imm.short offset
      if addr.toNat + f.width.bytes ≤ h.memory.capacity then
        .ok { register := some (rd, h.memory.loaded f addr.toNat), next := h.following }
      else .error (.outOfBounds addr f.width.bytes h.memory.capacity) := by
  simp only [effect, Memory.loadWord_eq]
  split <;> rfl

theorem effect_load_eq_ok_iff {h : Hart} {f : LoadOp} {rd base : Reg} {offset : BitVec 12}
    {e : Effect} :
    (load f rd base offset).effect h = .ok e ↔
      (h.read base + Imm.short offset).toNat + f.width.bytes ≤ h.memory.capacity ∧
        e = { register := some (rd, h.memory.loaded f (h.read base + Imm.short offset).toNat),
              next := h.following } := by
  simp only [effect_load]
  split
  · next hle => exact ⟨fun he => ⟨hle, (Except.ok.inj he).symm⟩, fun he => congrArg _ he.2.symm⟩
  · next hle => exact ⟨nofun, fun he => absurd he.1 hle⟩

theorem effect_store_eq_ok_iff {h : Hart} {width : Width} {source base : Reg}
    {offset : BitVec 12} {e : Effect} :
    (store width source base offset).effect h = .ok e ↔
      (h.read base + Imm.short offset).toNat + width.bytes ≤ h.memory.capacity ∧
        e = { stored := some ((h.read base + Imm.short offset).toNat,
                LittleEndian.toBytes width.bytes ((h.read source).setWidth width.bits).toNat),
              next := h.following } := by
  simp only [effect]
  split
  · next hle => exact ⟨fun he => ⟨hle, (Except.ok.inj he).symm⟩, fun he => congrArg _ he.2.symm⟩
  · next hle => exact ⟨nofun, fun he => absurd he.1 hle⟩

theorem fitsIn_of_effect {h : Hart} {i : Instr} {e : Effect} (hi : i.effect h = .ok e) :
    e.FitsIn h.memory.capacity := by
  intro a data hs
  cases i with
  | load f rd base offset =>
    obtain ⟨-, rfl⟩ := effect_load_eq_ok_iff.mp hi
    cases hs
  | store width source base offset =>
    obtain ⟨hle, rfl⟩ := effect_store_eq_ok_iff.mp hi
    cases hs
    rwa [LittleEndian.length_toBytes]
  | _ =>
    cases hi
    cases hs

/-- The effect depends on what is read, and on the program counter and the memory. -/
theorem effect_congr {h k : Hart} (hread : ∀ r, h.read r = k.read r) (hpc : h.pc = k.pc)
    (hmem : h.memory = k.memory) (i : Instr) : i.effect h = i.effect k := by
  have hfol : h.following = k.following := by rw [Hart.following, Hart.following, hpc]
  cases i <;> simp only [effect, hread, hpc, hmem, hfol]

theorem apply_eq_map_commit (h : Hart) (i : Instr) : i.apply h = (i.effect h).map h.commit := by
  cases i with
  | load f rd base offset =>
    rw [apply, effect]
    cases h.memory.loadWord f (h.read base + Imm.short offset) <;> rfl
  | store width source base offset =>
    rw [apply, effect, Memory.storeWord_eq]
    by_cases hb : (h.read base + Imm.short offset).toNat + width.bytes ≤ h.memory.capacity
    · rw [if_pos hb, if_pos hb]
      rfl
    · rw [if_neg hb, if_neg hb]
      rfl
  | branch cond rs1 rs2 half =>
    rw [apply, effect]
    by_cases hc : cond.holds (h.read rs1) (h.read rs2) = true
    · rw [if_pos hc, if_pos hc]
      rfl
    · rw [if_neg hc, if_neg hc]
      rfl
  | _ => rfl

theorem effect_eq_error_iff (h : Hart) (i : Instr) (e : MemoryError) :
    i.effect h = .error e ↔ i.apply h = .error e := by
  rw [apply_eq_map_commit]
  cases i.effect h with
  | ok e' => exact ⟨nofun, nofun⟩
  | error e' =>
    constructor
    · rintro ⟨⟩
      rfl
    · rintro ⟨⟩
      rfl

end Instr

namespace Hart

theorem step_of_undecodable (h : Hart) {w : Word} {e : DecodeError} (hw : decode w = .error e) :
    h.step w = ⟨h, .error (.decode e), [.undecodable e]⟩ := by
  simp only [step, hw]

theorem step_of_fault {h : Hart} {w : Word} {i : Instr} {e : MemoryError}
    (hw : decode w = .ok i) (hi : i.effect h = .error e) :
    h.step w = ⟨h, .error (.memory e), [.executing h.pc i, e.event]⟩ := by
  have happly : i.apply h = .error e := by rw [i.apply_eq_map_commit, hi]; rfl
  simp only [step, hw]
  exact execute_of_error happly

theorem step_of_effect {h : Hart} {w : Word} {i : Instr} {e : Effect}
    (hw : decode w = .ok i) (hi : i.effect h = .ok e) :
    h.step w = ⟨h.commit e, .ok (), [.executing h.pc i]⟩ := by
  have happly : i.apply h = .ok (h.commit e) := by rw [i.apply_eq_map_commit, hi]; rfl
  simp only [step, hw]
  exact execute_of_ok happly

/-- A step whose instruction sets a register. -/
theorem step_of_register {h : Hart} {w : Word} {i : Instr} {rd : Reg} {v next : Word}
    (hw : decode w = .ok i) (hi : i.effect h = .ok { register := some (rd, v), next }) :
    h.step w = ⟨(h.write rd v).jump next, .ok (), [.executing h.pc i]⟩ :=
  step_of_effect hw hi

/-- All that a step can do, by the effect of its instruction. -/
theorem step_cases_effect (h : Hart) (w : Word) :
    (∃ e, decode w = .error e ∧ h.step w = ⟨h, .error (.decode e), [.undecodable e]⟩) ∨
    (∃ i e, decode w = .ok i ∧ i.effect h = .error e ∧
      h.step w = ⟨h, .error (.memory e), [.executing h.pc i, e.event]⟩) ∨
    (∃ i e, decode w = .ok i ∧ i.effect h = .ok e ∧
      h.step w = ⟨h.commit e, .ok (), [.executing h.pc i]⟩) := by
  cases hw : decode w with
  | error e => exact .inl ⟨e, rfl, h.step_of_undecodable hw⟩
  | ok i =>
    cases hi : i.effect h with
    | error e => exact .inr (.inl ⟨i, e, rfl, hi, step_of_fault hw hi⟩)
    | ok e => exact .inr (.inr ⟨i, e, rfl, hi, step_of_effect hw hi⟩)

/-- A step that succeeds commits the effect of its instruction. -/
theorem exists_effect {h : Hart} {w : Word} {i : Instr} (hw : decode w = .ok i)
    (hok : (h.step w).result = .ok ()) :
    ∃ e, i.effect h = .ok e ∧ (h.step w).hart = h.commit e := by
  cases hi : i.effect h with
  | error e =>
    rw [step_of_fault hw hi] at hok
    cases hok
  | ok e => exact ⟨e, rfl, by rw [step_of_effect hw hi]⟩

theorem zero_step (h : Hart) (w : Word) :
    (h.step w).hart.registers.zero = h.registers.zero := by
  obtain ⟨e, -, hs⟩ | ⟨i, e, -, -, hs⟩ | ⟨i, e, -, -, hs⟩ := h.step_cases_effect w
  · rw [hs]
  · rw [hs]
  · rw [hs, zero_commit]

theorem capacity_step (h : Hart) (w : Word) :
    (h.step w).hart.memory.capacity = h.memory.capacity := by
  obtain ⟨e, -, hs⟩ | ⟨i, e, -, -, hs⟩ | ⟨i, e, -, -, hs⟩ := h.step_cases_effect w
  · rw [hs]
  · rw [hs]
  · rw [hs, capacity_commit]

/-- The outcome of each step when words are given one after another, whether or not they work. -/
def outcomes (exec : Hart → Word → Outcome) (h : Hart) : List Word → List Outcome
  | [] => []
  | w :: ws => exec h w :: outcomes exec (exec h w).hart ws

/-- Two lists of words run in lockstep: what one step on related harts and words keeps, all of
them keep. Of the outcomes on the left something may be known beforehand. -/
theorem forall₂_outcomes_of {R : Hart → Hart → Prop} {P : Word → Word → Prop} {Q : Outcome → Prop}
    {exec exec' : Hart → Word → Outcome}
    (hstep : ∀ h k w w', R h k → P w w' → Q (exec h w) →
      (exec h w).result = (exec' k w').result ∧ R (exec h w).hart (exec' k w').hart)
    {h k : Hart} (hR : R h k) {ws ws' : List Word} (hP : List.Forall₂ P ws ws')
    (hQ : ∀ o ∈ h.outcomes exec ws, Q o) :
    List.Forall₂ (fun o o' => o.result = o'.result ∧ R o.hart o'.hart)
      (h.outcomes exec ws) (k.outcomes exec' ws') := by
  -- The harts vary, since the tails run on those that the heads leave behind.
  induction hP generalizing h k with
  | nil => exact .nil
  | cons hw _ ih =>
    obtain ⟨hhead, htail⟩ := List.forall_mem_cons.mp hQ
    have hone := hstep h k _ _ hR hw hhead
    exact .cons hone (ih hone.2 htail)

/-- Two lists of words run in lockstep, whatever their outcomes are. -/
theorem forall₂_outcomes {R : Hart → Hart → Prop} {P : Word → Word → Prop}
    {exec exec' : Hart → Word → Outcome}
    (hstep : ∀ h k w w', R h k → P w w' →
      (exec h w).result = (exec' k w').result ∧ R (exec h w).hart (exec' k w').hart)
    {h k : Hart} (hR : R h k) {ws ws' : List Word} (hP : List.Forall₂ P ws ws') :
    List.Forall₂ (fun o o' => o.result = o'.result ∧ R o.hart o'.hart)
      (h.outcomes exec ws) (k.outcomes exec' ws') :=
  forall₂_outcomes_of (Q := fun _ => True) (fun h k w w' hR hP _ => hstep h k w w' hR hP) hR hP
    fun _ _ => trivial

/-- The hart that a list of words leaves behind, whether or not they work. -/
def after (h : Hart) (ws : List Word) : Hart := ws.foldl (fun k w => (k.step w).hart) h

theorem zero_after (h : Hart) (ws : List Word) :
    (h.after ws).registers.zero = h.registers.zero := by
  induction ws generalizing h with
  | nil => rfl
  | cons w ws ih => exact (ih (h.step w).hart).trans (h.zero_step w)

theorem capacity_after (h : Hart) (ws : List Word) :
    (h.after ws).memory.capacity = h.memory.capacity := by
  induction ws generalizing h with
  | nil => rfl
  | cons w ws ih => exact (ih (h.step w).hart).trans (h.capacity_step w)

end Hart

end RiscHart
