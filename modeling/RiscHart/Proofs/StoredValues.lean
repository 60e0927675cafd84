import RiscHart.Proofs.Operands

/-!
# Stored values survive

The bytes of a store stay until another store that takes effect touches one of them. Whatever else
is run in between, whatever it does to the registers and the program counter, and whatever fails,
a load from inside the stored bytes finds the bits of the stored value that belong there.
-/

namespace RiscHart

namespace Hart

/-- A byte changes in a step only if a store that works touches it. -/
theorem byte_step {h : Hart} {w : Word} {b : Nat}
    (hb : ∀ i, decode w = .ok i → i.isStore → (h.step w).result = .ok () → b ∉ i.touched h) :
    (h.step w).hart.memory.byte b = h.memory.byte b := by
  obtain ⟨e, -, hs⟩ | ⟨i, e, -, -, hs⟩ | ⟨i, e, hw, hi, hs⟩ := h.step_cases_effect w
  · rw [hs]
  · rw [hs]
  · rw [hs, byte_commit h (Instr.fitsIn_of_effect hi)]
    cases hstored : e.stored with
    | none => rfl
    | some p =>
      obtain ⟨hstore, hacc⟩ := (Instr.kindOf_of_effect hi).access?_eq hstored
      have hout := hb i hw hstore (by rw [hs])
      rw [Instr.touched_of_access hacc, Finset.mem_Ico] at hout
      exact if_neg hout

/-- Whether no store that works, while words are given one after another, touches an address of a
set. -/
def Spares (addrs : Finset Nat) (h : Hart) : List Word → Prop
  | [] => True
  | w :: ws =>
    (∀ i, decode w = .ok i → i.isStore → (h.step w).result = .ok () →
      Disjoint (i.touched h) addrs) ∧
    Spares addrs (h.step w).hart ws

theorem byte_after {addrs : Finset Nat} {b : Nat} (hb : b ∈ addrs) {h : Hart} {ws : List Word}
    (hws : h.Spares addrs ws) : (h.after ws).memory.byte b = h.memory.byte b := by
  induction ws generalizing h with
  | nil => rfl
  | cons w ws ih =>
    obtain ⟨hw, hrest⟩ := hws
    have hstep : (h.step w).hart.memory.byte b = h.memory.byte b := by
      apply byte_step
      intro i hi hstore hok hin
      exact Finset.disjoint_left.mp (hw i hi hstore hok) hin hb
    exact (ih hrest).trans hstep

/-- What a store that works leaves in its bytes. -/
theorem byte_step_store {h : Hart} {w : Word} {width : Width} {source base : Reg}
    {offset : BitVec 12} (hw : decode w = .ok (.store width source base offset))
    (hok : (h.step w).result = .ok ()) :
    let a := (h.read base + Imm.short offset).toNat
    a + width.bytes ≤ h.memory.capacity ∧
      ∀ b, a ≤ b → b < a + width.bytes → (h.step w).hart.memory.byte b =
        BitVec.ofNat 8 ((h.read source).toNat / 256 ^ (b - a)) := by
  intro a
  obtain ⟨e, he, hs⟩ := exists_effect hw hok
  obtain ⟨hle, rfl⟩ := Instr.effect_store_eq_ok_iff.mp he
  refine ⟨hle, fun b hb hb' => ?_⟩
  rw [hs]
  exact (h.memory.byte_putWord width hle (h.read source) b).trans (if_pos ⟨hb, hb'⟩)

/-- A load that stays within the memory. -/
theorem step_load {h : Hart} {w : Word} {f : LoadOp} {rd base : Reg} {offset : BitVec 12}
    (hw : decode w = .ok (.load f rd base offset))
    (hle : (h.read base + Imm.short offset).toNat + f.width.bytes ≤ h.memory.capacity)
    (hrd : h.registers.pinned rd = false) :
    (h.step w).result = .ok () ∧
      (h.step w).hart.read rd = h.memory.loaded f (h.read base + Imm.short offset).toNat := by
  rw [step_of_effect hw (Instr.effect_load_eq_ok_iff.mpr ⟨hle, rfl⟩), read_commit]
  exact ⟨rfl, if_pos ⟨rfl, hrd⟩⟩

end Hart

/-- A load from inside the bytes of an earlier store, whatever was run in between that spares
them, works and gives the bits of the stored value that lie there. -/
theorem stored_value_survives {h : Hart} {w : Word} {width : Width} {source base : Reg}
    {offset : BitVec 12} (hw : decode w = .ok (.store width source base offset))
    (hok : (h.step w).result = .ok ()) {ws : List Word}
    (hws : (h.step w).hart.Spares ((Instr.store width source base offset).touched h) ws)
    {l : Word} {f : LoadOp} {rd base' : Reg} {offset' : BitVec 12}
    (hl : decode l = .ok (.load f rd base' offset')) (hrd : h.registers.pinned rd = false)
    {k : Nat}
    (haddr : wrap (((h.after (w :: ws)).read base').toNat + offset'.toInt) =
      wrap ((h.read base).toNat + offset.toInt) + k)
    (hk : k + f.width.bytes ≤ width.bytes) :
    ((h.after (w :: ws)).step l).result = .ok () ∧
      ((h.after (w :: ws)).step l).hart.read rd =
        f.extend ((h.read source).extractLsb' (8 * k) f.width.bits) := by
  obtain ⟨hle, hplaces⟩ := Hart.byte_step_store hw hok
  rw [Instr.touched_of_access (Instr.access?_store ..)] at hws
  rw [Imm.wrap_add_short, Imm.wrap_add_short] at haddr
  have hcap := h.capacity_after (w :: ws)
  have hpinned : (h.after (w :: ws)).registers.pinned rd = false := by
    rw [Registers.pinned, h.zero_after]
    exact hrd
  obtain ⟨hres, hread⟩ := Hart.step_load hl (by omega) hpinned
  refine ⟨hres, ?_⟩
  rw [hread, haddr]
  apply Memory.loaded_of_places _ hk
  intro b hb hb'
  rw [← hplaces b hb hb']
  exact Hart.byte_after (Finset.mem_Ico.mpr ⟨hb, hb'⟩) hws

/-- The upper half of a word stored at a wrapped address, loaded after a word that is no
instruction, a store to the byte before it, a store to its last byte that faults, and a change of
the first base register. -/
theorem stored_value_survives_upper :
    let h : Hart :=
      ⟨⟨.hardwired, ((Vector.replicate Reg.count 0).set 1 0xFFFFFFFE).set 2 0x8081C2F3⟩, 0,
        ⟨#[0, 0, 0, 0, 0, 0, 0, 0]⟩⟩
    let ws : List Word := [0x00000000#32, 0x002000A3#32, 0x002022A3#32, 0x00100093#32]
    decode 0x0020A223#32 = .ok (.store .word 2 1 4) ∧ (h.step 0x0020A223#32).result = .ok () ∧
      (h.step 0x0020A223#32).hart.Spares ((Instr.store .word 2 1 4).touched h) ws ∧
      decode 0x00309183#32 = .ok (.load .lh 3 1 3) ∧
      ((h.after (0x0020A223#32 :: ws)).step 0x00309183#32).result = .ok () ∧
      ((h.after (0x0020A223#32 :: ws)).step 0x00309183#32).hart.read 3 = 0xFFFF8081#32 := by
  intro h ws
  have hw : decode 0x0020A223#32 = .ok (.store .word 2 1 4) := by rfl
  have hok : (h.step 0x0020A223#32).result = .ok () := by decide
  have hws : (h.step 0x0020A223#32).hart.Spares ((Instr.store .word 2 1 4).touched h) ws := by
    refine ⟨nofun, ?_, ?_, ?_, trivial⟩
    · rintro i ⟨⟩ _ _
      decide
    · rintro i ⟨⟩ _ hfault
      exact absurd hfault (by decide)
    · rintro i ⟨⟩ ⟨⟩
  have hl : decode 0x00309183#32 = .ok (.load .lh 3 1 3) := by rfl
  have haddr : wrap (((h.after (0x0020A223#32 :: ws)).read 1).toNat + (3#12).toInt) =
      wrap ((h.read 1).toNat + (4#12).toInt) + 2 := by decide
  obtain ⟨hres, hread⟩ := stored_value_survives hw hok hws hl (by decide) haddr (by decide)
  exact ⟨hw, hok, hws, hl, hres, hread.trans (by decide)⟩

end RiscHart
