import RiscHart.Hart.Step
import RiscHart.Proofs.Dispatch
import RiscHart.Proofs.Integers
import RiscHart.Proofs.MemoryAccess

/-!
# How a step ends

A step on a word that is no instruction fails with the error of decoding. A step on an instruction
fails exactly when the instruction accesses memory and the bytes it wants do not all lie below the
capacity, where the end of the access is counted without wrapping. All other steps succeed.
-/

namespace RiscHart

namespace Instr

/-- The address and the number of bytes of the memory access that an instruction makes. -/
def access? (h : Hart) : Instr → Option (Nat × Nat)
  | load f _ base offset => some (wrap ((h.read base).toNat + offset.toInt), f.width.bytes)
  | store width _ base offset => some (wrap ((h.read base).toNat + offset.toInt), width.bytes)
  | _ => none

/-- Only loads and stores access memory, and they do so at a word address by one, two or four
bytes. -/
theorem bounds_of_access {h : Hart} {i : Instr} {a n : Nat} (hacc : i.access? h = some (a, n)) :
    a < 2 ^ 32 ∧ (n = 1 ∨ n = 2 ∨ n = 4) := by
  have hwidth : ∀ w : Width, w.bytes = 1 ∨ w.bytes = 2 ∨ w.bytes = 4 := by
    intro w
    cases w <;> decide
  cases i with
  | load f rd base offset =>
    cases hacc
    exact ⟨wrap_lt _, hwidth f.width⟩
  | store width source base offset =>
    cases hacc
    exact ⟨wrap_lt _, hwidth width⟩
  | _ => cases hacc

theorem apply_of_no_access {h : Hart} {i : Instr} (hacc : i.access? h = none) :
    ∃ h', i.apply h = .ok h' := by
  cases i with
  | load f rd base offset => cases hacc
  | store width source base offset => cases hacc
  | branch cond rs1 rs2 half =>
    rw [apply]
    split <;> exact ⟨_, rfl⟩
  | _ => exact ⟨_, rfl⟩

theorem apply_of_access_le {h : Hart} {i : Instr} {a n : Nat} (hacc : i.access? h = some (a, n))
    (hle : a + n ≤ h.memory.capacity) : ∃ h', i.apply h = .ok h' := by
  cases i with
  | load f rd base offset =>
    cases hacc
    rw [Imm.wrap_add_short] at hle
    rw [apply, Memory.loadWord, Memory.load_eq, if_pos hle]
    exact ⟨_, rfl⟩
  | store width source base offset =>
    cases hacc
    rw [Imm.wrap_add_short] at hle
    rw [apply, Memory.storeWord_eq, if_pos hle]
    exact ⟨_, rfl⟩
  | _ => cases hacc

theorem apply_of_lt_access {h : Hart} {i : Instr} {a n : Nat} (hacc : i.access? h = some (a, n))
    (hlt : h.memory.capacity < a + n) :
    i.apply h = .error (.outOfBounds (.ofNat 32 a) n h.memory.capacity) := by
  cases i with
  | load f rd base offset =>
    cases hacc
    rw [Imm.wrap_add_short] at hlt ⊢
    rw [apply, Memory.loadWord, Memory.load_eq, if_neg (Nat.not_le.mpr hlt), BitVec.ofNat_toNat,
      BitVec.setWidth_eq]
    rfl
  | store width source base offset =>
    cases hacc
    rw [Imm.wrap_add_short] at hlt ⊢
    rw [apply, Memory.storeWord_eq, if_neg (Nat.not_le.mpr hlt), BitVec.ofNat_toNat,
      BitVec.setWidth_eq]
    rfl
  | _ => cases hacc

theorem apply_eq_ok_iff (h : Hart) (i : Instr) :
    (∃ h', i.apply h = .ok h') ↔ ∀ a n, i.access? h = some (a, n) → a + n ≤ h.memory.capacity := by
  constructor
  · rintro ⟨h', hi⟩ a n hacc
    by_contra hle
    rw [apply_of_lt_access hacc (Nat.not_le.mp hle)] at hi
    cases hi
  · intro hle
    cases hacc : i.access? h with
    | none => exact apply_of_no_access hacc
    | some p => exact apply_of_access_le hacc (hle p.1 p.2 hacc)

theorem apply_eq_error_iff (h : Hart) (i : Instr) (e : MemoryError) :
    i.apply h = .error e ↔ ∃ a n, i.access? h = some (a, n) ∧ h.memory.capacity < a + n ∧
      e = .outOfBounds (.ofNat 32 a) n h.memory.capacity := by
  constructor
  · intro hi
    by_contra hnot
    obtain ⟨h', hok⟩ := (apply_eq_ok_iff h i).mpr (by
      intro a n hacc
      by_contra hle
      have hlt := Nat.not_le.mp hle
      refine hnot ⟨a, n, hacc, hlt, ?_⟩
      exact Except.error.inj (hi.symm.trans (apply_of_lt_access hacc hlt)))
    rw [hok] at hi
    cases hi
  · rintro ⟨a, n, hacc, hlt, rfl⟩
    exact apply_of_lt_access hacc hlt

end Instr

namespace Hart

theorem execute_of_ok {h h' : Hart} {i : Instr} (hi : i.apply h = .ok h') :
    h.execute i = ⟨h', .ok (), [.executing h.pc i]⟩ := by
  simp only [execute, hi, accessLog]

theorem execute_of_error {h : Hart} {i : Instr} {e : MemoryError} (hi : i.apply h = .error e) :
    h.execute i = ⟨h, .error (.memory e), [.executing h.pc i, e.event]⟩ := by
  simp only [execute, hi, accessLog]

/-- All that a step can do. Whatever goes wrong, the hart stays as it was. -/
theorem step_cases (h : Hart) (w : Word) :
    (∃ e, decode w = .error e ∧ h.step w = ⟨h, .error (.decode e), [.undecodable e]⟩) ∨
    (∃ i e, decode w = .ok i ∧ i.apply h = .error e ∧
      h.step w = ⟨h, .error (.memory e), [.executing h.pc i, e.event]⟩) ∨
    (∃ i h', decode w = .ok i ∧ i.apply h = .ok h' ∧
      h.step w = ⟨h', .ok (), [.executing h.pc i]⟩) := by
  cases hw : decode w with
  | error e => exact .inl ⟨e, rfl, by simp only [step, hw]⟩
  | ok i =>
    have hstep : h.step w = h.execute i := by simp only [step, hw]
    cases hi : i.apply h with
    | error e => exact .inr (.inl ⟨i, e, rfl, hi, hstep.trans (execute_of_error hi)⟩)
    | ok h' => exact .inr (.inr ⟨i, h', rfl, hi, hstep.trans (execute_of_ok hi)⟩)

theorem result_decode_iff (h : Hart) (w : Word) (e : DecodeError) :
    (h.step w).result = .error (.decode e) ↔ decode w = .error e := by
  obtain ⟨e', hw, hs⟩ | ⟨i, e', hw, -, hs⟩ | ⟨i, h', hw, -, hs⟩ := h.step_cases w
  · simp [hs, hw]
  · simp [hs, hw]
  · simp [hs, hw]

theorem result_memory_iff (h : Hart) (w : Word) (e : MemoryError) :
    (h.step w).result = .error (.memory e) ↔ ∃ i, decode w = .ok i ∧ i.apply h = .error e := by
  obtain ⟨e', hw, hs⟩ | ⟨i, e', hw, hi, hs⟩ | ⟨i, h', hw, hi, hs⟩ := h.step_cases w
  · simp [hs, hw]
  · simp [hs, hw, hi]
  · simp [hs, hw, hi]

theorem result_ok_iff (h : Hart) (w : Word) :
    (h.step w).result = .ok () ↔ ∃ i, decode w = .ok i ∧ ∃ h', i.apply h = .ok h' := by
  obtain ⟨e', hw, hs⟩ | ⟨i, e', hw, hi, hs⟩ | ⟨i, h', hw, hi, hs⟩ := h.step_cases w
  · simp [hs, hw]
  · simp [hs, hw, hi]
  · simp [hs, hw, hi]

theorem result_ne_register (h : Hart) (w : Word) (e : RegisterError) :
    (h.step w).result ≠ .error (.register e) := by
  obtain ⟨e', -, hs⟩ | ⟨i, e', -, -, hs⟩ | ⟨i, h', -, -, hs⟩ := h.step_cases w
  · simp [hs]
  · simp [hs]
  · simp [hs]

/-- Executing an instruction ends as the dispatch on its operation and format does. -/
theorem execute_of_dispatch {w : Word} {i : Instr} (hi : decode w = .ok i) (h : Hart) :
    (h.dispatch w i.op i.shape.format = .ok (h.execute i).hart ∧ (h.execute i).result = .ok ()) ∨
      ∃ e, h.dispatch w i.op i.shape.format = .error (.memory e) ∧
        (h.execute i).result = .error (.memory e) := by
  rw [dispatch_of_decode hi]
  cases ha : i.apply h with
  | ok h' =>
    rw [execute_of_ok ha]
    exact .inl ⟨rfl, rfl⟩
  | error e =>
    rw [execute_of_error ha]
    exact .inr ⟨e, rfl, rfl⟩

end Hart

/-- The ends of a step, each with the exact condition for it. On a decoded word the dispatch on
operation and format ends the same way: nothing is mismatched, and no register is missing. -/
theorem step_outcome (h : Hart) (w : Word) :
    (∀ e, (h.step w).result = .error (.decode e) ↔ decode w = .error e) ∧
    (∀ e, (h.step w).result = .error (.memory e) ↔
      ∃ i a n, decode w = .ok i ∧ i.access? h = some (a, n) ∧ (n = 1 ∨ n = 2 ∨ n = 4) ∧
        h.memory.capacity < a + n ∧ e = .outOfBounds (.ofNat 32 a) n h.memory.capacity) ∧
    ((h.step w).result = .ok () ↔
      ∃ i, decode w = .ok i ∧ ∀ a n, i.access? h = some (a, n) → a + n ≤ h.memory.capacity) ∧
    (∀ e, (h.step w).result ≠ .error (.register e)) ∧
    (∀ i, decode w = .ok i →
      Format.ofWord? w = some i.shape.format ∧
        ((h.dispatch w i.op i.shape.format = .ok (h.execute i).hart ∧
            (h.execute i).result = .ok ()) ∨
          ∃ e, h.dispatch w i.op i.shape.format = .error (.memory e) ∧
            (h.execute i).result = .error (.memory e))) := by
  refine ⟨h.result_decode_iff w, ?_, ?_, h.result_ne_register w, ?_⟩
  · intro e
    rw [h.result_memory_iff]
    constructor
    · rintro ⟨i, hw, hi⟩
      obtain ⟨a, n, hacc, hlt, he⟩ := (i.apply_eq_error_iff h e).mp hi
      exact ⟨i, a, n, hw, hacc, (Instr.bounds_of_access hacc).2, hlt, he⟩
    · rintro ⟨i, a, n, hw, hacc, -, hlt, he⟩
      exact ⟨i, hw, (i.apply_eq_error_iff h e).mpr ⟨a, n, hacc, hlt, he⟩⟩
  · rw [h.result_ok_iff]
    simp only [Instr.apply_eq_ok_iff]
  · intro i hi
    exact ⟨(Shape.read_of_ofWord (ofWord_of_decode hi)).1, Hart.execute_of_dispatch hi h⟩

/-- A load from the highest address, whose end would wrap to an address inside the memory. -/
theorem step_outcome_highest :
    decode 0xFFF02003#32 = .ok (.load .lw 0 0 (-1)) ∧
      ((Hart.clear .hardwired 16).step 0xFFF02003#32).result =
        .error (.memory (.outOfBounds 0xFFFFFFFF#32 4 16)) := by
  have hw : decode 0xFFF02003#32 = .ok (.load .lw 0 0 (-1)) := by rfl
  refine ⟨hw, ((step_outcome (Hart.clear .hardwired 16) _).2.1 _).mpr ?_⟩
  exact ⟨_, 0xFFFFFFFF, 4, hw, by rfl, by decide, by decide, rfl⟩

end RiscHart
