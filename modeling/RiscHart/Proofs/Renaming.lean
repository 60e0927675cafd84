import Mathlib.Logic.Equiv.Basic
import RiscHart.Proofs.Effects

/-!
# Renaming registers

No register is special but a hardwired `x0`. When the registers of a hart and the register fields
of the words it is given are renamed in the same way, nothing else changes: the renamed words stand
for the same operations with the same immediates, every step ends as before, and the registers
afterwards are the renamed ones.
-/

namespace RiscHart

variable {p : Equiv.Perm Reg}

/-- The fields of a format that select registers. -/
def Format.selectors : Format → List Field
  | r => [.rd, .rs1, .rs2]
  | i => [.rd, .rs1]
  | s | b => [.rs1, .rs2]
  | u | j => [.rd]
  | compressed => []

namespace Field

/-- The word with register `r` in a field of five bits. -/
def select (f : Field) (w : Word) (r : Reg) : Word :=
  (w &&& ~~~(lowMask 5 <<< f.low)) ||| (r.setWidth 32 <<< f.low)

theorem getLsbD_select (f : Field) (w : Word) (r : Reg) {i : Nat} (hi : i < 32) :
    (f.select w r).getLsbD i =
      if f.low ≤ i ∧ i < f.low + 5 then r.getLsbD (i - f.low) else w.getLsbD i := by
  simp only [select, BitVec.getLsbD_or, BitVec.getLsbD_and, BitVec.getLsbD_not,
    BitVec.getLsbD_shiftLeft, getLsbD_lowMask, BitVec.getLsbD_setWidth]
  grind

theorem extract_select_self {a : Nat} {f : Field} (hf : f.low = a) (ha : a + 5 ≤ 32) (w : Word)
    (r : Reg) : (f.select w r).extractLsb' a 5 = r := by
  subst hf
  apply BitVec.eq_of_getLsbD_eq
  intro i hi
  rw [BitVec.getLsbD_extractLsb', getLsbD_select f w r (by omega)]
  simp [hi]

theorem extract_select {a n : Nat} {f : Field} (h : a + n ≤ f.low ∨ f.low + 5 ≤ a)
    (hn : a + n ≤ 32) (w : Word) (r : Reg) :
    (f.select w r).extractLsb' a n = w.extractLsb' a n := by
  apply BitVec.eq_of_getLsbD_eq
  intro i hi
  rw [BitVec.getLsbD_extractLsb', BitVec.getLsbD_extractLsb', getLsbD_select f w r (by omega),
    if_neg (by omega)]

end Field

/-- A word with the register fields of a format replaced. -/
def Format.renameFields (p : Reg → Reg) (w : Word) (f : Format) : Word :=
  f.selectors.foldl (fun v s => s.select v (p (w.extractLsb' s.low 5))) w

/-- The word with every register field that its format has replaced. -/
def renameWord (p : Reg → Reg) (w : Word) : Word :=
  match Format.ofWord? w with
  | some f => f.renameFields p w
  | none => w

namespace Shape

def rename (p : Reg → Reg) : Shape → Shape
  | r f => r { f with rd := p f.rd, rs1 := p f.rs1, rs2 := p f.rs2 }
  | i f => i { f with rd := p f.rd, rs1 := p f.rs1 }
  | s f => s { f with rs1 := p f.rs1, rs2 := p f.rs2 }
  | b f => b { f with rs1 := p f.rs1, rs2 := p f.rs2 }
  | u f => u { f with rd := p f.rd }
  | j f => j { f with rd := p f.rd }

theorem imm?_rename (p : Reg → Reg) (s : Shape) : (s.rename p).imm? = s.imm? := by
  cases s <;> rfl

/-- No register field overlaps another field of its format. -/
theorem read_renameFields (p : Reg → Reg) {w : Word} {f : Format} {s : Shape}
    (h : read w f = .ok s) : read (f.renameFields p w) f = .ok (s.rename p) := by
  cases f <;> cases h
  all_goals
    simp (disch := decide) [read, rename, Format.renameFields, Format.selectors, RFields.ofWord,
      IFields.ofWord, SFields.ofWord, BFields.ofWord, UFields.ofWord, JFields.ofWord,
      Field.extract_select, Field.extract_select_self]

end Shape

namespace Instr

def rename (p : Reg → Reg) : Instr → Instr
  | alu f rd rs1 rs2 => alu f (p rd) (p rs1) (p rs2)
  | imm f rd rs1 value => imm f (p rd) (p rs1) value
  | shift f rd rs1 amount => shift f (p rd) (p rs1) amount
  | load f rd base offset => load f (p rd) (p base) offset
  | store width source base offset => store width (p source) (p base) offset
  | branch cond rs1 rs2 half => branch cond (p rs1) (p rs2) half
  | jal rd half => jal (p rd) half
  | jalr rd base offset => jalr (p rd) (p base) offset
  | lui rd value => lui (p rd) value
  | auipc rd value => auipc (p rd) value

theorem op_rename (p : Reg → Reg) (i : Instr) : (i.rename p).op = i.op := by cases i <;> rfl

theorem shape_rename (p : Reg → Reg) (i : Instr) : (i.rename p).shape = i.shape.rename p := by
  cases i <;> rfl

end Instr

theorem decode_renameWord (p : Reg → Reg) {w : Word} {i : Instr} (h : decode w = .ok i) :
    decode (renameWord p w) = .ok (i.rename p) := by
  obtain ⟨hf, hs⟩ := Shape.read_of_ofWord (ofWord_of_decode h)
  have hw : renameWord p w = (i.rename p).encode := by
    rw [renameWord, hf, Instr.encode, i.shape_rename]
    exact (Shape.word_of_read (Shape.read_renameFields p hs)).symm
  rw [hw, decode_encode]

def Effect.rename (p : Reg → Reg) (e : Effect) : Effect :=
  { e with register := e.register.map fun q => (p q.1, q.2) }

namespace Hart

/-- The second hart is the first with its registers renamed. -/
structure Renamed (p : Equiv.Perm Reg) (s t : Hart) : Prop where
  zero : t.registers.zero = s.registers.zero
  read : ∀ r, t.read (p r) = s.read r
  pc : t.pc = s.pc
  memory : t.memory = s.memory

/-- Whether a renaming leaves `x0` alone where `x0` is special. -/
def Respects (p : Equiv.Perm Reg) (s : Hart) : Prop :=
  s.registers.zero = .hardwired → p Reg.zero = Reg.zero

variable {s t : Hart}

theorem pinned_rename (hp : s.Respects p) (hst : t.registers.zero = s.registers.zero) (r : Reg) :
    t.registers.pinned (p r) = s.registers.pinned r := by
  rw [Registers.pinned, Registers.pinned, hst, decide_eq_decide, and_congr_left_iff]
  -- Only where `x0` is hardwired does it matter that the renaming fixes it.
  intro hz
  rw [← p.apply_eq_iff_eq (x := r), hp hz]

namespace Renamed

theorem effect (hst : s.Renamed p t) (i : Instr) :
    (i.rename p).effect t = (i.effect s).map (Effect.rename p) := by
  have hfol : t.following = s.following := by rw [Hart.following, Hart.following, hst.pc]
  cases i with
  | load f rd base offset =>
    simp only [Instr.rename, Instr.effect, hst.read, hst.memory, hfol]
    cases s.memory.loadWord f (s.read base + Imm.short offset) <;> rfl
  | store width source base offset =>
    simp only [Instr.rename, Instr.effect, hst.read, hst.memory, hfol]
    split <;> rfl
  | _ =>
    simp only [Instr.rename, Instr.effect, hst.read, hst.pc, hfol]
    rfl

theorem commit (hst : s.Renamed p t) (hp : s.Respects p) (e : Effect) :
    (s.commit e).Renamed p (t.commit (e.rename p)) where
  zero := by rw [zero_commit, zero_commit, hst.zero]
  read r := by
    rw [read_commit, read_commit, Effect.rename]
    cases e.register with
    | none => exact hst.read r
    | some q =>
      obtain ⟨rd, v⟩ := q
      dsimp only [Option.map_some]
      simp only [pinned_rename hp hst.zero, hst.read, p.apply_eq_iff_eq]
  pc := rfl
  memory := by
    unfold Hart.commit
    rw [hst.memory]
    rfl

theorem step (hst : s.Renamed p t) (hp : s.Respects p) {w : Word} {i : Instr}
    (hw : decode w = .ok i) :
    (s.step w).result = (t.step (renameWord p w)).result ∧
      ((s.step w).hart.Renamed p (t.step (renameWord p w)).hart ∧
        (s.step w).hart.Respects p) := by
  have hw' := decode_renameWord p hw
  have heff := hst.effect i
  cases hi : i.effect s with
  | error e =>
    rw [hi] at heff
    rw [step_of_fault hw hi, step_of_fault hw' heff]
    exact ⟨rfl, hst, hp⟩
  | ok e =>
    rw [hi] at heff
    rw [step_of_effect hw hi, step_of_effect hw' heff]
    exact ⟨rfl, hst.commit hp e, fun hz => hp ((s.zero_commit e).symm.trans hz)⟩

end Renamed

/-- A hart with its registers renamed, slot by slot. -/
def rename (p : Equiv.Perm Reg) (s : Hart) : Hart where
  registers :=
    ⟨s.registers.zero, .ofFn fun n => s.registers.slots[(p.symm (.ofFin n)).toFin]⟩
  pc := s.pc
  memory := s.memory

theorem slot_rename (s : Hart) (r : Reg) :
    (s.rename p).registers.slots[(p r).toFin] = s.registers.slots[r.toFin] := by
  have hr : p.symm (.ofFin (p r).toFin) = r := p.symm_apply_apply r
  simp only [rename, Fin.getElem_fin, Vector.getElem_ofFn]
  exact congrArg (fun q : Reg => s.registers.slots[q.toFin]) hr

theorem renamed_rename (hp : s.Respects p) : s.Renamed p (s.rename p) := by
  have hzero : (s.rename p).registers.zero = s.registers.zero := by simp only [rename]
  refine ⟨hzero, fun r => ?_, by simp only [rename], by simp only [rename]⟩
  rw [read, read, Registers.read, Registers.read, pinned_rename hp hzero, slot_rename]

end Hart

/-- Running words on a hart, and the renamed words on the renamed hart, is the same up to the
renaming. -/
theorem rename_equivariant (p : Equiv.Perm Reg) {s : Hart} (hp : s.Respects p) {ws : List Word}
    (hws : ∀ w ∈ ws, ∃ i, decode w = .ok i) :
    s.Renamed p (s.rename p) ∧
    (∀ w ∈ ws, ∃ i j, decode w = .ok i ∧ decode (renameWord p w) = .ok j ∧ j.op = i.op ∧
      j.shape.imm? = i.shape.imm?) ∧
    ∀ t, s.Renamed p t →
      List.Forall₂ (fun o o' => o.result = o'.result ∧ o.hart.Renamed p o'.hart)
        (s.outcomes Hart.step ws) (t.outcomes Hart.step (ws.map (renameWord p))) := by
  refine ⟨Hart.renamed_rename hp, ?_, ?_⟩
  · intro w hw
    obtain ⟨i, hi⟩ := hws w hw
    refine ⟨i, i.rename p, hi, decode_renameWord p hi, i.op_rename p, ?_⟩
    rw [i.shape_rename, Shape.imm?_rename]
  · intro t ht
    have hpairs : List.Forall₂ (fun w w' => (∃ i, decode w = .ok i) ∧ w' = renameWord p w) ws
        (ws.map (renameWord p)) :=
      List.forall₂_map_right_iff.mpr (List.forall₂_same.mpr fun w hw => ⟨hws w hw, rfl⟩)
    have hstep : ∀ s t w w', (Hart.Renamed p s t ∧ s.Respects p) →
        ((∃ i, decode w = .ok i) ∧ w' = renameWord p w) →
        (s.step w).result = (t.step w').result ∧
          ((s.step w).hart.Renamed p (t.step w').hart ∧ (s.step w).hart.Respects p) := by
      rintro s t w _ ⟨hst, hp⟩ ⟨⟨i, hi⟩, rfl⟩
      exact hst.step hp hi
    exact (Hart.forall₂_outcomes hstep ⟨ht, hp⟩ hpairs).imp fun o o' ho => ⟨ho.1, ho.2.1⟩

/-- With the names of a writable `x0` and of `x1` exchanged: an addition, a store, and a load that
fails. -/
theorem rename_equivariant_swap :
    let s := Hart.clear .writable 8
    let p : Equiv.Perm Reg := Equiv.swap 0 1
    let ws : List Word := [0x00500093#32, 0x00102023#32, 0x00802103#32]
    s.Respects p ∧ (∀ w ∈ ws, ∃ i, decode w = .ok i) ∧
      renameWord p 0x00500093#32 = 0x00508013#32 ∧
      List.Forall₂ (fun o o' => o.result = o'.result ∧ o.hart.Renamed p o'.hart)
        (s.outcomes Hart.step ws) ((s.rename p).outcomes Hart.step (ws.map (renameWord p))) := by
  intro s p ws
  have hp : s.Respects p := fun hz => nomatch hz
  have hws : ∀ w ∈ ws, ∃ i, decode w = .ok i := by
    simp only [ws, List.forall_mem_cons, List.not_mem_nil, false_implies, implies_true, and_true]
    exact ⟨⟨.imm .add 1 0 5, by rfl⟩, ⟨.store .word 1 0 0, by rfl⟩, ⟨.load .lw 2 0 8, by rfl⟩⟩
  obtain ⟨hst, -, hrun⟩ := rename_equivariant p hp hws
  exact ⟨hp, hws, by decide, hrun _ hst⟩

end RiscHart
