import RiscHart.Proofs.Operands

/-!
# Independent instructions commute

Two instructions that follow each other can be exchanged if neither sees the program counter or
sets it to a target, neither changes a register that the other reads or changes, and no byte that
one of them stores is accessed by the other. Each then has the effect it would have had in the
other order, up to the next program counter, and effects on separate registers and bytes can be
committed in either order.
-/

namespace RiscHart

namespace Instr

/-- Whether an instruction only goes on to the next one and does not see the program counter. -/
def isStraight : Instr → Bool
  | branch _ _ _ _ | jal _ _ | jalr _ _ _ | auipc _ _ => false
  | _ => true

/-- The program counter makes no difference to a straight instruction, except where it goes on. -/
theorem effect_jump {i : Instr} (hi : i.isStraight) (h : Hart) (pc : Word) :
    i.effect (h.jump pc) =
      (i.effect h).map fun e => { e with next := (h.jump pc).following } := by
  cases i with
  | branch _ _ _ _ | jal _ _ | jalr _ _ _ | auipc _ _ => cases hi
  | load f rd base offset =>
    simp only [effect_load, apply_ite (Except.map _)]
    rfl
  | store width source base offset =>
    simp only [effect, apply_ite (Except.map _)]
    rfl
  | _ => rfl

theorem next_of_effect {h : Hart} {i : Instr} {e : Effect} (hi : i.isStraight)
    (he : i.effect h = .ok e) : e.next = h.following := by
  have hjump := effect_jump hi h h.pc
  change i.effect h = _ at hjump
  rw [he] at hjump
  exact congrArg Effect.next (Except.ok.inj hjump)

end Instr

namespace Hart

/-- Two instructions that keep out of each other's way on a hart. A destination that is held at
zero is not changed and counts for nothing. -/
structure Independent (h : Hart) (i j : Instr) : Prop where
  left : ∀ r, i.shape.rd? = some r → h.registers.pinned r = false →
    j.shape.rd? ≠ some r ∧ r ∉ j.shape.sources
  right : ∀ r, j.shape.rd? = some r → h.registers.pinned r = false →
    i.shape.rd? ≠ some r ∧ r ∉ i.shape.sources
  memory : i.isStore ∨ j.isStore → Disjoint (i.touched h) (j.touched h)

namespace Independent

variable {h : Hart} {i j : Instr}

theorem symm (hij : h.Independent i j) : h.Independent j i :=
  ⟨hij.right, hij.left, fun hs => (hij.memory hs.symm).symm⟩

/-- What the one instruction changes does not show to the other. -/
theorem sameOperands (hij : h.Independent i j) {e : Effect} (he : i.effect h = .ok e) :
    h.SameOperands j ((h.commit e).jump h.pc) where
  read r hr := by
    change h.read r = (h.commit e).read r
    rw [read_commit]
    cases hreg : e.register with
    | none => rfl
    | some p =>
      have hrd := (Instr.kindOf_of_effect he).rd?_eq hreg
      refine (if_neg ?_).symm
      rintro ⟨rfl, hfree⟩
      exact (hij.left p.1 hrd hfree).2 hr
  pc := rfl
  zero := (h.zero_commit e).symm
  capacity := (h.capacity_commit e).symm
  loaded _ _ b hb := by
    change h.memory.byte b = (h.commit e).memory.byte b
    rw [byte_commit h (Instr.fitsIn_of_effect he)]
    cases hstored : e.stored with
    | none => rfl
    | some p =>
      obtain ⟨hstore, hacc⟩ := (Instr.kindOf_of_effect he).access?_eq hstored
      have hd := hij.memory (.inl hstore)
      rw [Instr.touched_of_access hacc] at hd
      exact (if_neg fun hin => Finset.disjoint_left.mp hd (Finset.mem_Ico.mpr hin) hb).symm

end Independent

/-- Effects on separate registers and bytes can be committed in either order. -/
theorem commit_comm {h : Hart} {e d : Effect}
    (hreg : ∀ r v s u, e.register = some (r, v) → d.register = some (s, u) → r = s →
      h.registers.pinned r = true)
    (he : e.FitsIn h.memory.capacity) (hd : d.FitsIn h.memory.capacity)
    (hmem : ∀ a data c data', e.stored = some (a, data) → d.stored = some (c, data') →
      Disjoint (Finset.Ico a (a + data.length)) (Finset.Ico c (c + data'.length)))
    (next : Word) :
    (h.commit e).commit { d with next } = (h.commit d).commit { e with next } := by
  obtain ⟨reg, stored, _⟩ := e
  obtain ⟨reg', stored', _⟩ := d
  simp only [commit, mk.injEq, true_and]
  constructor
  · cases reg with
    | none => rfl
    | some p =>
      cases reg' with
      | none => rfl
      | some q => exact h.registers.write_comm (hreg _ _ _ _ rfl rfl) p.2 q.2
  · cases stored with
    | none => rfl
    | some p =>
      cases stored' with
      | none => rfl
      | some q =>
        exact h.memory.put_comm (he _ _ rfl) (hd _ _ rfl) (hmem _ _ _ _ rfl rfl)

theorem Independent.commit_comm {h : Hart} {i j : Instr} (hij : h.Independent i j) {e d : Effect}
    (he : i.effect h = .ok e) (hd : j.effect h = .ok d) (next : Word) :
    (h.commit e).commit { d with next } = (h.commit d).commit { e with next } := by
  have hke := Instr.kindOf_of_effect he
  have hkd := Instr.kindOf_of_effect hd
  refine Hart.commit_comm ?_ (Instr.fitsIn_of_effect he) (Instr.fitsIn_of_effect hd) ?_ next
  · rintro r v _ u hr hs rfl
    by_contra hfree
    exact (hij.left r (hke.rd?_eq hr) (Bool.not_eq_true _ ▸ hfree)).1 (hkd.rd?_eq hs)
  · intro a data c data' ha hc
    obtain ⟨hstore, hacc⟩ := hke.access?_eq ha
    have hdis := hij.memory (.inl hstore)
    rwa [Instr.touched_of_access hacc, Instr.touched_of_access (hkd.access?_eq hc).2] at hdis

end Hart

/-- Two independent straight instructions that work one after the other also work in the other
order, and the hart afterwards is the same. -/
theorem independent_commute {h : Hart} {w w' : Word} {i j : Instr} (hw : decode w = .ok i)
    (hw' : decode w' = .ok j) (hi : i.isStraight) (hj : j.isStraight) (hij : h.Independent i j)
    (hfirst : (h.step w).result = .ok ())
    (hsecond : ((h.step w).hart.step w').result = .ok ()) :
    (h.step w').result = .ok () ∧ ((h.step w').hart.step w).result = .ok () ∧
      ((h.step w').hart.step w).hart = ((h.step w).hart.step w').hart ∧
      ((h.step w).hart.step w').hart.pc = h.pc + 8 := by
  obtain ⟨e, he, hstep⟩ := Hart.exists_effect hw hfirst
  rw [hstep] at hsecond ⊢
  obtain ⟨d, hd, hstep'⟩ := Hart.exists_effect hw' hsecond
  have hnext : d.next = h.following + 4 := by
    rw [Instr.next_of_effect hj hd]
    exact congrArg (· + 4) (Instr.next_of_effect hi he)
  -- The second effect in the place of the first, and the first in the place of the second.
  have hd' : j.effect h = .ok { d with next := h.following } := by
    rw [(hij.sameOperands he).effect_eq, Instr.effect_jump hj, hd]
    rfl
  have he' : i.effect (h.commit { d with next := h.following }) =
      .ok { e with next := d.next } := by
    have hjump := Instr.effect_jump hi ((h.commit { d with next := h.following }).jump h.pc)
      h.following
    rw [← (hij.symm.sameOperands hd').effect_eq, he] at hjump
    rw [hnext]
    exact hjump
  rw [hstep', Hart.step_of_effect hw' hd', Hart.step_of_effect hw he']
  refine ⟨rfl, rfl, (hij.commit_comm he hd' d.next).symm, hnext.trans ?_⟩
  rw [Hart.following, BitVec.add_assoc]
  rfl

/-- A store of two bytes, and a load of the byte behind them. -/
theorem independent_commute_adjacent :
    let h : Hart := ⟨Registers.clear .hardwired, 0xFFFFFFFC, ⟨#[1, 2, 3, 4, 0x85]⟩⟩
    let i : Instr := .store .half 2 0 2
    let j : Instr := .load .lb 3 0 4
    decode 0x00201123#32 = .ok i ∧ decode 0x00400183#32 = .ok j ∧ i.isStraight ∧ j.isStraight ∧
      h.Independent i j ∧ (h.step 0x00201123#32).result = .ok () ∧
      ((h.step 0x00201123#32).hart.step 0x00400183#32).result = .ok () ∧
      ((h.step 0x00400183#32).hart.step 0x00201123#32).hart =
        ((h.step 0x00201123#32).hart.step 0x00400183#32).hart := by
  intro h i j
  have hw : decode 0x00201123#32 = .ok i := by rfl
  have hw' : decode 0x00400183#32 = .ok j := by rfl
  have hapart : Disjoint (i.touched h) (j.touched h) := by decide
  have hij : h.Independent i j := by
    refine ⟨nofun, ?_, fun _ => hapart⟩
    rintro r ⟨⟩ _
    exact ⟨nofun, by decide⟩
  have hfirst : (h.step 0x00201123#32).result = .ok () := by rfl
  have hsecond : ((h.step 0x00201123#32).hart.step 0x00400183#32).result = .ok () := by rfl
  obtain ⟨-, -, hsame, -⟩ := independent_commute hw hw' rfl rfl hij hfirst hsecond
  exact ⟨hw, hw', rfl, rfl, hij, hfirst, hsecond, hsame⟩

end RiscHart
