import RiscHart.Proofs.Effects

/-!
# What an instruction depends on

An instruction sees the registers its format reads, the program counter, the capacity of the
memory and, if it is a load, the bytes it loads. Harts that agree on these are changed alike: each
becomes itself with the same register, or the same run of bytes, or neither, set to the same
values, and with the same next program counter. All else about them stays as it was.
-/

namespace RiscHart

/-- The registers that are read, by format. -/
def Shape.sources : Shape → List Reg
  | r f => [f.rs1, f.rs2]
  | i f => [f.rs1]
  | s f => [f.rs1, f.rs2]
  | b f => [f.rs1, f.rs2]
  | u _ | j _ => []

namespace Instr

def isLoad : Instr → Bool
  | load _ _ _ _ => true
  | _ => false

def isStore : Instr → Bool
  | store _ _ _ _ => true
  | _ => false

/-- The addresses of the bytes that an instruction accesses. -/
def touched (h : Hart) (i : Instr) : Finset Nat :=
  match i.access? h with
  | some (a, n) => Finset.Ico a (a + n)
  | none => ∅

theorem touched_of_access {h : Hart} {i : Instr} {a n : Nat} (hacc : i.access? h = some (a, n)) :
    i.touched h = Finset.Ico a (a + n) := by
  rw [touched, hacc]

theorem access?_load (h : Hart) (f : LoadOp) (rd base : Reg) (offset : BitVec 12) :
    (load f rd base offset).access? h =
      some ((h.read base + Imm.short offset).toNat, f.width.bytes) := by
  rw [access?, Imm.wrap_add_short]

theorem access?_store (h : Hart) (width : Width) (source base : Reg) (offset : BitVec 12) :
    (store width source base offset).access? h =
      some ((h.read base + Imm.short offset).toNat, width.bytes) := by
  rw [access?, Imm.wrap_add_short]

/-- Where an instruction accesses memory depends on its sources. -/
theorem access?_congr {s t : Hart} {i : Instr}
    (hread : ∀ r ∈ i.shape.sources, s.read r = t.read r) : i.access? s = i.access? t := by
  cases i with
  | load f rd base offset => rw [access?, access?, hread base List.mem_cons_self]
  | store width source base offset => rw [access?, access?, hread base List.mem_cons_self]
  | _ => rfl

end Instr

/-- An effect of the kind that an instruction has: it sets the destination register of the format,
if there is one, and the bytes that the instruction accesses, if that is a store. -/
structure Effect.KindOf (h : Hart) (i : Instr) (e : Effect) : Prop where
  register : e.register.map Prod.fst = i.shape.rd?
  stored : e.stored.map (fun p => (p.1, p.2.length)) = if i.isStore then i.access? h else none

namespace Effect.KindOf

variable {h : Hart} {i : Instr} {e : Effect}

theorem rd?_eq (hk : e.KindOf h i) {r : Reg} {v : Word} (hr : e.register = some (r, v)) :
    i.shape.rd? = some r := by
  rw [← hk.register, hr]
  rfl

theorem access?_eq (hk : e.KindOf h i) {a : Nat} {data : List Byte}
    (hs : e.stored = some (a, data)) : i.isStore ∧ i.access? h = some (a, data.length) := by
  have hspan := hk.stored
  rw [hs] at hspan
  by_cases hstore : i.isStore
  · rw [if_pos hstore] at hspan
    exact ⟨hstore, hspan.symm⟩
  · rw [if_neg hstore] at hspan
    cases hspan

end Effect.KindOf

theorem Instr.kindOf_of_effect {h : Hart} {i : Instr} {e : Effect} (hi : i.effect h = .ok e) :
    e.KindOf h i := by
  cases i with
  | load f rd base offset =>
    obtain ⟨-, rfl⟩ := effect_load_eq_ok_iff.mp hi
    exact ⟨rfl, rfl⟩
  | store width source base offset =>
    obtain ⟨-, rfl⟩ := effect_store_eq_ok_iff.mp hi
    refine ⟨rfl, ?_⟩
    rw [access?_store, isStore, if_pos rfl, Option.map_some, LittleEndian.length_toBytes]
  | _ =>
    cases hi
    exact ⟨rfl, rfl⟩

namespace Hart

/-- All that the instruction sees of the first hart, it sees of the second as well. -/
structure Covers (i : Instr) (s t : Hart) : Prop where
  read : ∀ r ∈ i.shape.sources, s.read r = t.read r
  pc : s.pc = t.pc
  capacity : s.memory.capacity ≤ t.memory.capacity
  loaded : i.isLoad → (∀ b ∈ i.touched s, b < s.memory.capacity) →
    ∀ b ∈ i.touched s, s.memory.byte b = t.memory.byte b

/-- An instruction that takes effect does so on any hart that shows it as much. -/
theorem Covers.effect {i : Instr} {s t : Hart} (hst : s.Covers i t) {e : Effect}
    (hi : i.effect s = .ok e) : i.effect t = .ok e := by
  have hread := hst.read
  have hcap := hst.capacity
  have hfol : s.following = t.following := by rw [following, following, hst.pc]
  cases i with
  | load f rd base offset =>
    obtain ⟨hle, rfl⟩ := Instr.effect_load_eq_ok_iff.mp hi
    have hbytes := hst.loaded rfl
    rw [Instr.touched_of_access (Instr.access?_load ..)] at hbytes
    simp only [Finset.mem_Ico, and_imp] at hbytes
    rw [Instr.effect_load_eq_ok_iff, ← hread base List.mem_cons_self, ← hfol,
      ← Memory.loaded_congr (hbytes fun b _ hb => hb.trans_le hle)]
    exact ⟨hle.trans hcap, rfl⟩
  | store width source base offset =>
    obtain ⟨hle, rfl⟩ := Instr.effect_store_eq_ok_iff.mp hi
    rw [Instr.effect_store_eq_ok_iff, ← hread base List.mem_cons_self,
      ← hread source (List.mem_cons_of_mem _ List.mem_cons_self), ← hfol]
    exact ⟨hle.trans hcap, rfl⟩
  | alu _ _ _ _ | imm _ _ _ _ | shift _ _ _ _ | branch _ _ _ _ | jalr _ _ _ =>
    simp only [Instr.shape, Shape.sources, List.forall_mem_cons] at hread
    simp only [Instr.effect, hread, hst.pc, hfol] at hi ⊢
    exact hi
  | jal _ _ | lui _ _ | auipc _ _ =>
    simp only [Instr.effect, hst.pc, hfol] at hi ⊢
    exact hi

/-- Two harts that show an instruction the same. -/
structure SameOperands (i : Instr) (s t : Hart) : Prop where
  read : ∀ r ∈ i.shape.sources, s.read r = t.read r
  pc : s.pc = t.pc
  zero : s.registers.zero = t.registers.zero
  capacity : s.memory.capacity = t.memory.capacity
  loaded : i.isLoad → (∀ b ∈ i.touched s, b < s.memory.capacity) →
    ∀ b ∈ i.touched s, s.memory.byte b = t.memory.byte b

namespace SameOperands

variable {i : Instr} {s t : Hart}

theorem covers (hst : s.SameOperands i t) : s.Covers i t :=
  ⟨hst.read, hst.pc, hst.capacity.le, hst.loaded⟩

/-- The same effect, or the same fault. -/
theorem effect_eq (hst : s.SameOperands i t) : i.effect s = i.effect t := by
  cases hi : i.effect s with
  | ok e => exact (hst.covers.effect hi).symm
  | error err =>
    rw [i.effect_eq_error_iff, i.apply_eq_error_iff, Instr.access?_congr hst.read,
      hst.capacity, ← i.apply_eq_error_iff, ← i.effect_eq_error_iff] at hi
    exact hi.symm

end SameOperands

/-- The second hart is the first with an effect committed, and is otherwise the same: in every
register, the hidden slot of `x0` included, every byte, the capacity and the policy. -/
structure ChangedBy (h : Hart) (e : Effect) (k : Hart) : Prop where
  pc : k.pc = e.next
  zero : k.registers.zero = h.registers.zero
  slot : ∀ r : Reg, k.registers.slots[r.toFin] =
    match e.register with
    | some (rd, v) =>
      if r = rd ∧ h.registers.pinned rd = false then v else h.registers.slots[r.toFin]
    | none => h.registers.slots[r.toFin]
  capacity : k.memory.capacity = h.memory.capacity
  byte : ∀ b, k.memory.byte b =
    match e.stored with
    | some (a, data) =>
      if a ≤ b ∧ b < a + data.length then data[b - a]?.getD 0 else h.memory.byte b
    | none => h.memory.byte b

theorem changedBy_commit (h : Hart) {e : Effect} (he : e.FitsIn h.memory.capacity) :
    h.ChangedBy e (h.commit e) where
  pc := rfl
  zero := h.zero_commit e
  slot r := h.slot_commit e r
  capacity := h.capacity_commit e
  byte := h.byte_commit he

end Hart

/-- Two harts that show an instruction the same go through it alike. If it works, one effect, of
the kind that the instruction has, is all that changes on either of them. -/
theorem effect_fixed_by_operands {w : Word} {i : Instr} (hw : decode w = .ok i) {s t : Hart}
    (hst : s.SameOperands i t) :
    (s.step w).result = (t.step w).result ∧
    (∀ err, (s.step w).result = .error err → (s.step w).hart = s ∧ (t.step w).hart = t) ∧
    ((s.step w).result = .ok () → ∃ e : Effect, e.KindOf s i ∧
      s.ChangedBy e (s.step w).hart ∧ t.ChangedBy e (t.step w).hart) := by
  cases hi : i.effect s with
  | error err =>
    have hi' : i.effect t = .error err := hst.effect_eq.symm.trans hi
    rw [Hart.step_of_fault hw hi, Hart.step_of_fault hw hi']
    exact ⟨rfl, fun _ _ => ⟨rfl, rfl⟩, nofun⟩
  | ok e =>
    have hi' : i.effect t = .ok e := hst.effect_eq.symm.trans hi
    rw [Hart.step_of_effect hw hi, Hart.step_of_effect hw hi']
    refine ⟨rfl, nofun, fun _ => ⟨e, Instr.kindOf_of_effect hi, ?_, ?_⟩⟩
    · exact s.changedBy_commit (Instr.fitsIn_of_effect hi)
    · exact t.changedBy_commit (Instr.fitsIn_of_effect hi')

/-- A load into `x3` on two harts that differ in most registers and in the bytes that are not
loaded. -/
theorem effect_fixed_by_operands_load :
    let s : Hart := ⟨⟨.hardwired, Vector.replicate Reg.count 0⟩, 4, ⟨#[1, 2, 0xFF, 0x80]⟩⟩
    let t : Hart := ⟨⟨.hardwired, (Vector.replicate Reg.count 9).set 1 0⟩, 4, ⟨#[3, 4, 0xFF, 0x80]⟩⟩
    let i : Instr := .load .lh 3 1 2
    decode 0x00209183#32 = .ok i ∧ s.SameOperands i t ∧
      (s.step 0x00209183#32).result = .ok () ∧ ∃ e : Effect, e.KindOf s i ∧
        s.ChangedBy e (s.step 0x00209183#32).hart ∧ t.ChangedBy e (t.step 0x00209183#32).hart := by
  intro s t i
  have hw : decode 0x00209183#32 = .ok i := by rfl
  have hbytes : ∀ b ∈ Finset.Ico 2 4, s.memory.byte b = t.memory.byte b := by decide
  have hst : s.SameOperands i t := ⟨by decide, rfl, rfl, rfl, fun _ _ => hbytes⟩
  have hok : (s.step 0x00209183#32).result = .ok () := by rfl
  exact ⟨hw, hst, hok, (effect_fixed_by_operands hw hst).2.2 hok⟩

end RiscHart
