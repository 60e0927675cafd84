import RiscHart.Isa.Shape

/-!
# Words and their shapes

A word has the shape that has the word: reading a shape and laying it out again are inverse to
each other in every format, and the opcode of a shape selects the format the word is read in. The
offsets of branches and jumps are in fragments, which are put together and cut apart again.
-/

namespace RiscHart

theorem extractLsb'_nested {n : Nat} (x : BitVec n) {a m b k : Nat} (h : b + k ≤ m) :
    (x.extractLsb' a m).extractLsb' b k = x.extractLsb' (a + b) k := by
  apply BitVec.eq_of_getLsbD_eq
  intro i hi
  simp only [BitVec.getLsbD_extractLsb', hi, show b + i < m by omega, decide_true, Bool.true_and,
    Nat.add_assoc]

theorem Field.setWidth_get (f : Field) (w : Word) : (f.get w).setWidth 32 = f.extract w := by
  apply BitVec.eq_of_getLsbD_eq
  intro i hi
  simp only [get, extract, BitVec.getLsbD_setWidth, getLsbD_bits, hi, decide_true, Bool.true_and]
  by_cases hw : i < f.width
  · simp [hw]
  · simp [hw]

theorem Opcode.ofCode?_code (o : Opcode) : ofCode? o.code = some o := ofCode?_eq_some_iff.mpr rfl

theorem and_lengthMask (w : Word) : w &&& lengthMask = (w.extractLsb' 0 2).setWidth 32 := by
  apply BitVec.eq_of_getLsbD_eq
  intro i hi
  have hmask : lengthMask = lowMask 2 := rfl
  simp only [hmask, BitVec.getLsbD_and, getLsbD_lowMask, BitVec.getLsbD_setWidth,
    BitVec.getLsbD_extractLsb', Nat.zero_add, hi, decide_true, Bool.true_and]
  exact Bool.and_comm _ _

/-- A word has its full length exactly when both length bits are set. -/
theorem fullLength_iff (w : Word) : w &&& lengthMask = fullLength ↔ w.extractLsb' 0 2 = 3#2 := by
  rw [and_lengthMask]
  constructor
  · intro h
    have hw := congrArg (BitVec.setWidth 2) h
    rwa [BitVec.setWidth_setWidth_of_le _ (by omega), BitVec.setWidth_eq] at hw
  · intro h
    rw [h]
    rfl

namespace Format

/-- Every major opcode has both length bits set. -/
theorem ofWord?_of_opcode {w : Word} {o : Opcode} (h : o.code = Field.opcode.get w) :
    ofWord? w = some o.format := by
  have hlen : w &&& lengthMask = fullLength := by
    have hlow : w.extractLsb' 0 2 = o.code.extractLsb' 0 2 := by
      rw [h, Field.get_opcode, extractLsb'_nested w (by omega)]
    rw [fullLength_iff, hlow]
    cases o <;> rfl
  rw [ofWord?, if_neg (not_not_intro hlen), ← h, Opcode.ofCode?_code]
  rfl

end Format

namespace Shape

theorem word_of_read {w : Word} {f : Format} {s : Shape} (h : read w f = .ok s) : s.word = w := by
  cases f <;> cases h
  · exact RFields.word_ofWord w
  · exact IFields.word_ofWord w
  · exact SFields.word_ofWord w
  · exact BFields.word_ofWord w
  · exact UFields.word_ofWord w
  · exact JFields.word_ofWord w

theorem format_of_read {w : Word} {f : Format} {s : Shape} (h : read w f = .ok s) :
    s.format = f := by
  cases f <;> cases h <;> rfl

theorem opcode_of_read {w : Word} {f : Format} {s : Shape} (h : read w f = .ok s) :
    s.opcode = Field.opcode.get w := by
  cases f <;> cases h <;> rfl

theorem read_word (s : Shape) : read s.word s.format = .ok s := by
  cases s with
  | r f => exact congrArg (Except.ok ∘ r) f.ofWord_word
  | i f => exact congrArg (Except.ok ∘ i) f.ofWord_word
  | s f => exact congrArg (Except.ok ∘ s) f.ofWord_word
  | b f => exact congrArg (Except.ok ∘ b) f.ofWord_word
  | u f => exact congrArg (Except.ok ∘ u) f.ofWord_word
  | j f => exact congrArg (Except.ok ∘ j) f.ofWord_word

theorem opcode_word (s : Shape) : Field.opcode.get s.word = s.opcode :=
  (opcode_of_read s.read_word).symm

/-- A word has the shape that has the word, provided the opcode selects the format of that shape. -/
theorem ofWord_word {s : Shape} {o : Opcode} (ho : o.code = s.opcode) (hf : o.format = s.format) :
    ofWord s.word = .ok s := by
  have hw : Format.ofWord? s.word = some s.format := by
    rw [← hf]
    exact Format.ofWord?_of_opcode (ho.trans s.opcode_word.symm)
  rw [ofWord, hw]
  exact s.read_word

theorem read_of_ofWord {w : Word} {s : Shape} (h : ofWord w = .ok s) :
    Format.ofWord? w = some s.format ∧ read w s.format = .ok s := by
  rw [ofWord] at h
  split at h
  · next f hf =>
    rw [hf, format_of_read h]
    exact ⟨rfl, h⟩
  · cases h

end Shape

namespace IFields

theorem funct7_ofWord (w : Word) : (ofWord w).funct7 = Field.funct7.get w := by
  rw [funct7, ofWord, Field.get_immI, Field.get_funct7]
  exact extractLsb'_nested w (by omega)

end IFields

namespace BFields

/-- The fragments of a branch offset, put together again. -/
theorem append_fragments (half : BitVec 12) :
    half.extractLsb' 11 1 ++ half.extractLsb' 10 1 ++ half.extractLsb' 4 6 ++
      half.extractLsb' 0 4 = half := by
  simp only [BitVec.extractLsb'_append_extractLsb'_eq_extractLsb']
  simp

theorem fragments_half (f : BFields) :
    f.half.extractLsb' 11 1 = f.imm12 ∧ f.half.extractLsb' 10 1 = f.imm11 ∧
      f.half.extractLsb' 4 6 = f.imm10_5 ∧ f.half.extractLsb' 0 4 = f.imm4_1 := by
  simp only [half, BitVec.extractLsb'_append_eq_ite]
  simp

end BFields

namespace JFields

/-- The fragments of a jump offset, put together again. -/
theorem append_fragments (half : BitVec 20) :
    half.extractLsb' 19 1 ++ half.extractLsb' 11 8 ++ half.extractLsb' 10 1 ++
      half.extractLsb' 0 10 = half := by
  simp only [BitVec.extractLsb'_append_extractLsb'_eq_extractLsb']
  simp

theorem fragments_half (f : JFields) :
    f.half.extractLsb' 19 1 = f.imm20 ∧ f.half.extractLsb' 11 8 = f.imm19_12 ∧
      f.half.extractLsb' 10 1 = f.imm11 ∧ f.half.extractLsb' 0 10 = f.imm10_1 := by
  simp only [half, BitVec.extractLsb'_append_eq_ite]
  simp

end JFields

end RiscHart
