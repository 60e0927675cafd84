import RiscHart.Hart.Run
import RiscHart.Proofs.Effects
import RiscHart.Proofs.HartView

/-!
# Steps and runs are those of the manual

An instruction does to the view of a hart what the manual says about its encoding. A step does so
for every word, and a run for every word it fetches.
-/

namespace RiscHart

/-! One lemma for each family of operations, about the operands that stand in any word. -/

namespace Op

open Manual (State)

theorem view_alu (h : Hart) (w : Word) (f : AluOp) :
    h.view.perform w.toNat (alu f) = (((alu f).instr w).apply h).toOption.map Hart.view := by
  rw [State.perform, Manual.rs1_eq, Manual.rs2_eq, h.view_read, h.view_read, Manual.arith_toNat,
    h.view_result]
  rfl

theorem view_imm (h : Hart) (w : Word) (f : ImmOp) :
    h.view.perform w.toNat (imm f) = (((imm f).instr w).apply h).toOption.map Hart.view := by
  have hrow : h.view.perform w.toNat (imm f) = some (h.view.result w.toNat
      (Manual.arith f.alu (h.view.read (Manual.rs1 w.toNat)) (wrap (Manual.immI w.toNat)))) := by
    cases f <;> rfl
  rw [hrow, Manual.rs1_eq, Manual.immI_eq, h.view_read, ← Imm.toNat_short, Manual.arith_toNat,
    h.view_result]
  rfl

theorem view_shift (h : Hart) (w : Word) (f : ShiftOp) :
    h.view.perform w.toNat (shift f) = (((shift f).instr w).apply h).toOption.map Hart.view := by
  have hrow : h.view.perform w.toNat (shift f) = some (h.view.result w.toNat
      (Manual.arith f.alu (h.view.read (Manual.rs1 w.toNat)) (Manual.shamt w.toNat))) := by
    cases f <;> rfl
  have hamount : (IFields.ofWord w).shamt.toNat = ((IFields.ofWord w).shamt.setWidth 32).toNat :=
    (BitVec.toNat_setWidth_of_le (by omega)).symm
  rw [hrow, Manual.rs1_eq, Manual.shamt_eq, hamount, h.view_read, Manual.arith_toNat,
    h.view_result]
  rfl

/-- A load of any kind, given how the manual extends what was fetched. -/
theorem view_extend (h : Hart) (w : Word) (f : LoadOp) (extend : Nat → Nat)
    (hext : ∀ v : BitVec f.width.bits, extend v.toNat = (f.extend v).toNat) :
    h.view.load w.toNat f.width.bytes extend =
      (((load f).instr w).apply h).toOption.map Hart.view := by
  rw [State.load, Manual.rs1_eq, Manual.immI_eq, h.address_eq, instr, Instr.apply,
    Memory.loadWord, Memory.load_eq]
  generalize (h.read (Field.rs1.get w) + Imm.short (IFields.ofWord w).imm).toNat = a
  by_cases hb : a + f.width.bytes ≤ h.memory.capacity
  · have hfetch := hext (.ofNat _ (h.memory.number a f.width.bytes))
    rw [Memory.toNat_ofNat_number] at hfetch
    rw [if_pos hb]
    refine (if_pos hb).trans (congrArg some ?_)
    exact (congrArg (h.view.result w.toNat) hfetch).trans (h.view_result w _)
  · rw [if_neg hb]
    exact if_neg hb

theorem view_load (h : Hart) (w : Word) (f : LoadOp) :
    h.view.perform w.toNat (load f) = (((load f).instr w).apply h).toOption.map Hart.view := by
  cases f with
  | lb =>
    exact view_extend h w .lb (fun v => wrap (signed 8 v)) fun v => (LoadOp.lb.toNat_extend v).symm
  | lh =>
    exact view_extend h w .lh (fun v => wrap (signed 16 v)) fun v => (LoadOp.lh.toNat_extend v).symm
  | lw =>
    exact view_extend h w .lw (fun v => v) fun v : BitVec 32 =>
      congrArg BitVec.toNat (BitVec.signExtend_eq v).symm
  | lbu => exact view_extend h w .lbu (fun v => v) fun v => (LoadOp.lbu.toNat_extend v).symm
  | lhu => exact view_extend h w .lhu (fun v => v) fun v => (LoadOp.lhu.toNat_extend v).symm

theorem view_store (h : Hart) (w : Word) (width : Width) :
    h.view.perform w.toNat (store width) =
      (((store width).instr w).apply h).toOption.map Hart.view := by
  have hrow : h.view.perform w.toNat (store width) = h.view.store w.toNat width.bytes := by
    cases width <;> rfl
  rw [hrow, State.store, Manual.rs1_eq, Manual.rs2_eq, Manual.immS_eq, h.address_eq,
    h.view_read, instr, Instr.apply, Memory.storeWord_eq]
  generalize (h.read (Field.rs1.get w) + Imm.short (SFields.ofWord w).imm).toNat = a
  generalize h.read (Field.rs2.get w) = v
  by_cases hb : a + width.bytes ≤ h.memory.capacity
  · rw [if_pos hb]
    refine (if_pos hb).trans (congrArg some ?_)
    rw [← h.view_putWord width hb]
    exact Hart.goto_following { h with memory := h.memory.putWord width a v }
  · rw [if_neg hb]
    exact if_neg hb

theorem view_branch (h : Hart) (w : Word) (cond : Condition) :
    h.view.perform w.toNat (branch cond) =
      (((branch cond).instr w).apply h).toOption.map Hart.view := by
  rw [State.perform, Manual.rs1_eq, Manual.rs2_eq, Manual.immB_eq, h.view_read, h.view_read,
    instr, Instr.apply]
  by_cases hc : cond.holds (h.read (Field.rs1.get w)) (h.read (Field.rs2.get w)) = true
  · rw [if_pos hc, if_pos ((Manual.taken_iff cond _ _).mpr hc), h.goto_add]
    rfl
  · rw [if_neg hc, if_neg (fun ht => hc ((Manual.taken_iff cond _ _).mp ht)), h.goto_following]
    rfl

theorem view_jal (h : Hart) (w : Word) :
    h.view.perform w.toNat jal = ((jal.instr w).apply h).toOption.map Hart.view := by
  rw [State.perform, Manual.rd_eq, Manual.immJ_eq, h.view_link]
  exact congrArg some ((h.write (Field.rd.get w) h.following).goto_add _)

theorem view_jalr (h : Hart) (w : Word) :
    h.view.perform w.toNat jalr = ((jalr.instr w).apply h).toOption.map Hart.view := by
  rw [State.perform, Manual.rd_eq, Manual.rs1_eq, Manual.immI_eq, h.view_link, h.address_eq,
    State.goto, ← toNat_clear_bit_zero, wrap_toNat]
  rfl

theorem view_lui (h : Hart) (w : Word) :
    h.view.perform w.toNat lui = ((lui.instr w).apply h).toOption.map Hart.view := by
  rw [State.perform, Manual.immU_eq, h.view_result]
  rfl

theorem view_auipc (h : Hart) (w : Word) :
    h.view.perform w.toNat auipc = ((auipc.instr w).apply h).toOption.map Hart.view := by
  have hsum := wrap_add_toNat h.pc (Imm.upper (UFields.ofWord w).imm)
  rw [State.perform, Manual.immU_eq]
  exact congrArg some ((congrArg (h.view.result w.toNat) hsum).trans (h.view_result w _))

/-- What the manual says about an operation on a word is what the instruction does whose operands
stand in the word. -/
theorem view_apply (h : Hart) (w : Word) (o : Op) :
    h.view.perform w.toNat o = ((o.instr w).apply h).toOption.map Hart.view := by
  cases o with
  | alu f => exact view_alu h w f
  | imm f => exact view_imm h w f
  | shift f => exact view_shift h w f
  | load f => exact view_load h w f
  | store width => exact view_store h w width
  | branch cond => exact view_branch h w cond
  | jal => exact view_jal h w
  | jalr => exact view_jalr h w
  | lui => exact view_lui h w
  | auipc => exact view_auipc h w

end Op

/-! Steps and runs. -/

/-- The table finds the operation that decoding finds. -/
theorem find?_of_decode {w : Word} {i : Instr} (h : decode w = .ok i) :
    (Op.all.find? fun o => o.pattern.Matches w) = some i.op := by
  have hm := matches_of_decode h
  cases ho : Op.all.find? fun o => o.pattern.Matches w with
  | none =>
    have hnone := List.find?_eq_none.mp ho i.op i.op.mem_all
    exact absurd (decide_eq_true hm) hnone
  | some o =>
    have ho' := of_decide_eq_true (List.find?_eq_some_iff_append.mp ho).1
    rw [op_eq_of_matches ho' hm]

theorem find?_of_error {w : Word} {e : DecodeError} (h : decode w = .error e) :
    (Op.all.find? fun o => o.pattern.Matches w) = none := by
  rw [List.find?_eq_none]
  intro o _ ho
  have hi := decode_of_matches (of_decide_eq_true ho)
  rw [h] at hi
  exact nomatch hi

namespace Hart

theorem view_step_of_decode (h : Hart) {w : Word} {i : Instr} (hw : decode w = .ok i) :
    h.view.step w = (i.apply h).toOption.map view := by
  rw [Manual.State.step, find?_of_decode hw, Option.bind_some, Op.view_apply, instr_of_decode hw]

theorem view_step (h : Hart) (w : Word) :
    h.view.step w =
      match (h.step w).result with
      | .ok () => some (h.step w).hart.view
      | .error _ => none := by
  obtain ⟨e, hw, hs⟩ | ⟨i, e, hw, hi, hs⟩ | ⟨i, h', hw, hi, hs⟩ := h.step_cases w
  · rw [hs, Manual.State.step, find?_of_error hw, Option.bind_none]
  · rw [hs, h.view_step_of_decode hw, hi]
    rfl
  · rw [hs, h.view_step_of_decode hw, hi]
    rfl

/-- A word has the same outcome in both: the next state, and whether there was a step. -/
theorem view_next (h : Hart) (w : Word) :
    h.view.next w = (h.step w).hart.view ∧ (h.view.step w).isSome = (h.step w).result.isOk := by
  rw [Manual.State.next, h.view_step]
  -- a step that fails leaves both as they were
  obtain ⟨e, -, hs⟩ | ⟨i, e, -, -, hs⟩ | ⟨i, h', -, -, hs⟩ := h.step_cases w
  · rw [hs]
    exact ⟨rfl, rfl⟩
  · rw [hs]
    exact ⟨rfl, rfl⟩
  · rw [hs]
    exact ⟨rfl, rfl⟩

theorem view_outcomes (h : Hart) (ws : List Word) :
    h.view.outcomes ws = (h.outcomes step ws).map fun o => (o.hart.view, o.result.isOk) := by
  induction ws generalizing h with
  | nil => rfl
  | cons w ws ih =>
    obtain ⟨hnext, hok⟩ := h.view_next w
    rw [Manual.State.outcomes, outcomes, List.map_cons, hnext, hok, ih]

theorem view_after (h : Hart) (ws : List Word) : h.view.after ws = (h.after ws).view := by
  induction ws generalizing h with
  | nil => rfl
  | cons w ws ih =>
    calc h.view.after (w :: ws) = (h.view.next w).after ws := rfl
      _ = (h.step w).hart.view.after ws := by rw [(h.view_next w).1]
      _ = (h.after (w :: ws)).view := ih (h.step w).hart

theorem view_fetch (h : Hart) : h.view.fetch = (h.memory.load .word h.pc).toOption := by
  rw [Memory.load_eq, Manual.State.fetch]
  by_cases hb : h.pc.toNat + Width.word.bytes ≤ h.memory.capacity
  · rw [if_pos hb]
    exact if_pos hb
  · rw [if_neg hb]
    exact if_neg hb

end Hart

namespace Run

/-- A run goes on to the next state of the manual, or it stops where it is. -/
theorem view_extend (r : Run) :
    ((r.extend Hart.step).stop = none ∧
      r.hart.view.fetch.bind r.hart.view.step = some (r.extend Hart.step).hart.view) ∨
    ((r.extend Hart.step).stop.isSome = true ∧ (r.extend Hart.step).hart = r.hart ∧
      r.hart.view.fetch.bind r.hart.view.step = none) := by
  obtain ⟨h, visited, log, stop⟩ := r
  cases hl : h.memory.load .word h.pc with
  | error e =>
    have hext : extend Hart.step ⟨h, visited, log, stop⟩ =
        ⟨h, visited.push h.pc, log.push e.event, some (.fetch e)⟩ := by
      simp only [extend, hl]
    rw [hext, h.view_fetch, hl]
    exact .inr ⟨rfl, rfl, rfl⟩
  | ok w =>
    have hext : extend Hart.step ⟨h, visited, log, stop⟩ =
        ⟨(h.step w).hart, visited.push h.pc, log ++ (h.step w).log, (h.step w).stop?⟩ := by
      simp only [extend, hl]
    have hv : h.view.fetch.bind h.view.step =
        match (h.step w).result with
        | .ok () => some (h.step w).hart.view
        | .error _ => none := by
      rw [h.view_fetch, hl]
      exact h.view_step w
    rw [hext, hv]
    obtain ⟨e, -, hs⟩ | ⟨i, e, -, -, hs⟩ | ⟨i, h', -, -, hs⟩ := h.step_cases w
    · rw [hs]
      exact .inr ⟨rfl, rfl, rfl⟩
    · rw [hs]
      exact .inr ⟨rfl, rfl, rfl⟩
    · rw [hs]
      exact .inl ⟨rfl, rfl⟩

theorem view_proceed (limit : Nat) {r : Run} (hr : r.stop = none) :
    r.hart.view.run limit =
      ((r.proceed Hart.step limit).hart.view, (r.proceed Hart.step limit).stop.isSome) := by
  induction limit generalizing r with
  | zero =>
    rw [Manual.State.run, proceed, hr]
    rfl
  | succ limit ih =>
    have hgo : r.proceed Hart.step (limit + 1) = (r.extend Hart.step).proceed Hart.step limit := by
      rw [proceed, hr]
      rfl
    rw [hgo, Manual.State.run]
    obtain ⟨hnone, hnext⟩ | ⟨hsome, hstay, hnext⟩ := r.view_extend
    · rw [hnext]
      exact ih hnone
    · rw [hnext, proceed_of_stop _ _ hsome, hstay, hsome]

end Run

/-- A hart in numbers behaves as the manual says. It has a next state on the words on which a step
succeeds, and that is the view of the hart after the step. Any words given one after another have
the same outcomes, word by word, and leave the same state behind. A run of any length on fetched
words ends in the same state, and stops early in the same cases. -/
theorem step_refines_manual :
    Function.Injective Hart.view ∧
    (∀ (h : Hart) (w : Word), h.view.step w =
      match (h.step w).result with
      | .ok () => some (h.step w).hart.view
      | .error _ => none) ∧
    (∀ (h : Hart) (ws : List Word),
      h.view.outcomes ws =
        (h.outcomes Hart.step ws).map (fun o => (o.hart.view, o.result.isOk)) ∧
      h.view.after ws = (h.after ws).view) ∧
    (∀ (h : Hart) (limit : Nat), h.view.run limit =
      ((h.run Hart.step limit).hart.view, (h.run Hart.step limit).stop.isSome)) :=
  ⟨Hart.view_injective, Hart.view_step, fun h ws => ⟨h.view_outcomes ws, h.view_after ws⟩,
    fun h limit => Run.view_proceed limit (r := { hart := h }) rfl⟩

end RiscHart
