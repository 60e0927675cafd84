import RiscHart.Hart.Basic
import RiscHart.Proofs.ManualValues
import RiscHart.Proofs.MemoryAccess

/-!
# Harts in numbers

`Hart.view` is a hart as the manual sees it, and it forgets nothing about the hart. Every access
to a hart is the access of the same name to its view.
-/

namespace RiscHart

namespace Hart

def view (h : Hart) : Manual.State where
  x n := (h.registers.slots[n]?.getD 0).toNat
  pc := h.pc.toNat
  byte a := (h.memory.byte a).toNat
  capacity := h.memory.capacity
  zero := h.registers.zero

theorem view_injective : Function.Injective view := by
  intro h h' heq
  obtain ⟨⟨zero, slots⟩, pc, memory⟩ := h
  obtain ⟨⟨zero', slots'⟩, pc', memory'⟩ := h'
  simp only [view, Manual.State.mk.injEq] at heq
  obtain ⟨hx, hpc, hbyte, hcap, rfl⟩ := heq
  have hslots : slots = slots' := by
    apply Vector.ext
    intro n hn
    have hn' := congrFun hx n
    rw [Vector.getElem?_eq_getElem hn, Vector.getElem?_eq_getElem hn] at hn'
    exact BitVec.eq_of_toNat_eq hn'
  have hmemory : memory = memory' :=
    Memory.ext_byte hcap fun a => BitVec.eq_of_toNat_eq (congrFun hbyte a)
  rw [hslots, hmemory, BitVec.eq_of_toNat_eq hpc]

/-! What the accesses do to the view. -/

theorem pinned_iff (h : Hart) (r : Reg) :
    h.registers.pinned r = true ↔ r.toNat = 0 ∧ h.view.zero = .hardwired := by
  have hr : r = Reg.zero ↔ r.toNat = 0 := BitVec.toNat_inj.symm
  rw [Registers.pinned, decide_eq_true_iff, hr]
  rfl

theorem view_read (h : Hart) (r : Reg) : h.view.read r.toNat = (h.read r).toNat := by
  rw [Manual.State.read, Hart.read, Registers.read, apply_ite BitVec.toNat]
  have hx : h.view.x r.toNat = h.registers.slots[r.toFin].toNat := by
    have hr : r.toNat < Reg.count := r.isLt
    change (h.registers.slots[r.toNat]?.getD 0).toNat = _
    rw [Vector.getElem?_eq_getElem hr]
    rfl
  exact if_congr (h.pinned_iff r).symm rfl hx

theorem view_write (h : Hart) (r : Reg) (v : Word) :
    (h.write r v).view = h.view.write r.toNat v.toNat := by
  rw [Manual.State.write, Hart.write, Registers.write]
  by_cases hp : h.registers.pinned r = true
  · rw [if_pos hp, if_pos ((h.pinned_iff r).mp hp)]
  · rw [if_neg hp, if_neg (fun hn => hp ((h.pinned_iff r).mpr hn))]
    have hx : (fun n => ((h.registers.slots.set r.toFin v)[n]?.getD 0).toNat) =
        Function.update h.view.x r.toNat v.toNat := by
      funext n
      have hr : r.toNat < Reg.count := r.isLt
      by_cases hn : n = r.toNat
      · subst hn
        simp [hr]
      · rw [Function.update_of_ne hn]
        have hne : r.toNat ≠ n := fun h => hn h.symm
        simp [hne, view]
    exact congrArg (fun x => { h.view with x := x }) hx

theorem goto_following (h : Hart) : h.view.goto (h.view.pc + 4) = h.advance.view := by
  have hpc : wrap (h.pc.toNat + 4) = h.following.toNat :=
    wrap_add_toNat h.pc (.ofNat 32 instructionBytes)
  exact congrArg (fun n => { h.view with pc := n }) hpc

theorem goto_add (h : Hart) (offset : Word) :
    h.view.goto (h.view.pc + offset.toInt) = (h.jump (h.pc + offset)).view :=
  congrArg (fun n => { h.view with pc := n }) (wrap_add_toInt h.pc offset)

theorem view_link (h : Hart) (r : Reg) :
    h.view.write r.toNat (wrap (h.view.pc + 4)) = (h.write r h.following).view := by
  have hpc : wrap (h.pc.toNat + 4) = h.following.toNat :=
    wrap_add_toNat h.pc (.ofNat 32 instructionBytes)
  rw [view_write, ← hpc]
  rfl

theorem view_result (h : Hart) (w v : Word) :
    h.view.result w.toNat v.toNat = (h.write (Field.rd.get w) v).advance.view := by
  rw [Manual.State.result, Manual.rd_eq, ← view_write]
  exact (h.write (Field.rd.get w) v).goto_following

theorem address_eq (h : Hart) (base : Reg) (offset : BitVec 12) :
    wrap (h.view.read base.toNat + offset.toInt) = (h.read base + Imm.short offset).toNat := by
  rw [view_read, Imm.wrap_add_short]

theorem view_putWord (h : Hart) (width : Width) {a : Nat}
    (hb : a + width.bytes ≤ h.memory.capacity) (v : Word) :
    { h with memory := h.memory.putWord width a v }.view = h.view.put a width.bytes v.toNat := by
  have hbyte : (fun b => ((h.memory.putWord width a v).byte b).toNat) =
      (h.view.put a width.bytes v.toNat).byte := by
    funext b
    rw [Memory.byte_putWord _ _ hb, apply_ite BitVec.toNat]
    rfl
  have hcap : (h.memory.putWord width a v).capacity = h.memory.capacity := Memory.capacity_put ..
  simp only [view, hbyte, hcap, Manual.State.put]

end Hart

end RiscHart
