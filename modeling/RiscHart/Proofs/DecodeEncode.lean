import RiscHart.Isa.Instr
import RiscHart.Proofs.ShapeWords

/-!
# Decoding is the inverse of encoding

A word stands for an instruction exactly when it is the encoding of that instruction. The proof
goes through the shape: an instruction is read back from its own shape, nothing else has that
shape, and a word has one shape, that of the format its opcode selects.
-/

namespace RiscHart

namespace Instr

/-- The major opcode of an instruction. -/
def major : Instr → Opcode
  | alu _ _ _ _ => .op
  | imm _ _ _ _ | shift _ _ _ _ => .opImm
  | load _ _ _ _ => .load
  | store _ _ _ _ => .store
  | branch _ _ _ _ => .branch
  | jal _ _ => .jal
  | jalr _ _ _ => .jalr
  | lui _ _ => .lui
  | auipc _ _ => .auipc

theorem code_major (i : Instr) : i.major.code = i.shape.opcode := by cases i <;> rfl

theorem format_major (i : Instr) : i.major.format = i.shape.format := by cases i <;> rfl

theorem ofShape?_shape (i : Instr) : ofShape? i.shape = some i := by
  cases i with
  | alu f rd rs1 rs2 =>
    have hf : AluOp.ofCodes? f.funct3 f.funct7 = some f :=
      AluOp.ofCodes?_eq_some_iff.mpr ⟨rfl, rfl⟩
    simp only [shape, ofShape?, ofRFields?, Opcode.ofCode?_code, hf, Option.map_some]
  | imm f rd rs1 value =>
    have hf : ImmOp.ofFunct3? f.alu.funct3 = some f := ImmOp.ofFunct3?_eq_some_iff.mpr rfl
    simp only [shape, ofShape?, ofIFields?, Opcode.ofCode?_code, hf]
  | shift f rd rs1 amount =>
    have hf : ShiftOp.ofCodes? f.alu.funct3 f.alu.funct7 = some f :=
      ShiftOp.ofCodes?_eq_some_iff.mpr ⟨rfl, rfl⟩
    have hnone : ImmOp.ofFunct3? f.alu.funct3 = none := by cases f <;> rfl
    simp only [shape, ofShape?, ofIFields?, Opcode.ofCode?_code, hnone, IFields.funct7,
      IFields.shamt, BitVec.extractLsb'_append_eq_left, BitVec.extractLsb'_append_eq_right, hf,
      Option.map_some]
  | load f rd base offset =>
    have hf : LoadOp.ofFunct3? f.funct3 = some f := LoadOp.ofFunct3?_eq_some_iff.mpr rfl
    simp only [shape, ofShape?, ofIFields?, Opcode.ofCode?_code, hf, Option.map_some]
  | store width source base offset =>
    have hf : Width.ofFunct3? width.funct3 = some width := Width.ofFunct3?_eq_some_iff.mpr rfl
    have himm : offset.extractLsb' 5 7 ++ offset.extractLsb' 0 5 = offset :=
      BitVec.extractLsb'_append_extractLsb'
    simp only [shape, ofShape?, ofSFields?, Opcode.ofCode?_code, SFields.imm, himm, hf,
      Option.map_some]
  | branch cond rs1 rs2 half =>
    have hf : Condition.ofFunct3? cond.funct3 = some cond :=
      Condition.ofFunct3?_eq_some_iff.mpr rfl
    simp only [shape, ofShape?, ofBFields?, Opcode.ofCode?_code, hf, Option.map_some,
      BFields.half, BFields.append_fragments]
  | jal rd half =>
    simp only [shape, ofShape?, ofJFields?, Opcode.ofCode?_code, JFields.half,
      JFields.append_fragments]
  | jalr rd base offset =>
    simp only [shape, ofShape?, ofIFields?, Opcode.ofCode?_code, if_true]
  | lui rd value => simp only [shape, ofShape?, ofUFields?, Opcode.ofCode?_code]
  | auipc rd value => simp only [shape, ofShape?, ofUFields?, Opcode.ofCode?_code]

theorem shape_of_ofRFields? {f : RFields} {i : Instr} (h : ofRFields? f = some i) :
    i.shape = .r f := by
  unfold ofRFields? at h
  split at h
  · next ho =>
    obtain ⟨g, hg, rfl⟩ := Option.map_eq_some_iff.mp h
    obtain ⟨h3, h7⟩ := AluOp.ofCodes?_eq_some_iff.mp hg
    have hop := Opcode.ofCode?_eq_some_iff.mp ho
    simp only [shape, h3, h7, hop]
  · cases h

theorem shape_of_ofIFields? {f : IFields} {i : Instr} (h : ofIFields? f = some i) :
    i.shape = .i f := by
  unfold ofIFields? at h
  split at h
  · next ho =>
    have hop := Opcode.ofCode?_eq_some_iff.mp ho
    split at h
    · next g hg =>
      cases h
      have h3 := ImmOp.ofFunct3?_eq_some_iff.mp hg
      simp only [shape, h3, hop]
    · obtain ⟨g, hg, rfl⟩ := Option.map_eq_some_iff.mp h
      obtain ⟨h3, h7⟩ := ShiftOp.ofCodes?_eq_some_iff.mp hg
      have himm : f.funct7 ++ f.shamt = f.imm := BitVec.extractLsb'_append_extractLsb'
      simp only [shape, h3, h7, himm, hop]
  · next ho =>
    have hop := Opcode.ofCode?_eq_some_iff.mp ho
    obtain ⟨g, hg, rfl⟩ := Option.map_eq_some_iff.mp h
    have h3 := LoadOp.ofFunct3?_eq_some_iff.mp hg
    simp only [shape, h3, hop]
  · next ho =>
    have hop := Opcode.ofCode?_eq_some_iff.mp ho
    split at h
    · next h3 =>
      cases h
      simp only [shape, ← h3, hop]
    · cases h
  · cases h

theorem shape_of_ofSFields? {f : SFields} {i : Instr} (h : ofSFields? f = some i) :
    i.shape = .s f := by
  unfold ofSFields? at h
  split at h
  · next ho =>
    have hop := Opcode.ofCode?_eq_some_iff.mp ho
    obtain ⟨g, hg, rfl⟩ := Option.map_eq_some_iff.mp h
    have h3 := Width.ofFunct3?_eq_some_iff.mp hg
    simp only [shape, h3, hop, SFields.imm, BitVec.extractLsb'_append_eq_left,
      BitVec.extractLsb'_append_eq_right]
  · cases h

theorem shape_of_ofBFields? {f : BFields} {i : Instr} (h : ofBFields? f = some i) :
    i.shape = .b f := by
  unfold ofBFields? at h
  split at h
  · next ho =>
    have hop := Opcode.ofCode?_eq_some_iff.mp ho
    obtain ⟨g, hg, rfl⟩ := Option.map_eq_some_iff.mp h
    have h3 := Condition.ofFunct3?_eq_some_iff.mp hg
    obtain ⟨h12, h11, h10, h4⟩ := f.fragments_half
    simp only [shape, h3, hop, h12, h11, h10, h4]
  · cases h

theorem shape_of_ofUFields? {f : UFields} {i : Instr} (h : ofUFields? f = some i) :
    i.shape = .u f := by
  unfold ofUFields? at h
  split at h
  · next ho =>
    cases h
    simp only [shape, Opcode.ofCode?_eq_some_iff.mp ho]
  · next ho =>
    cases h
    simp only [shape, Opcode.ofCode?_eq_some_iff.mp ho]
  · cases h

theorem shape_of_ofJFields? {f : JFields} {i : Instr} (h : ofJFields? f = some i) :
    i.shape = .j f := by
  unfold ofJFields? at h
  split at h
  · next ho =>
    cases h
    obtain ⟨h20, h19, h11, h10⟩ := f.fragments_half
    simp only [shape, Opcode.ofCode?_eq_some_iff.mp ho, h20, h19, h11, h10]
  · cases h

theorem shape_of_ofShape? {s : Shape} {i : Instr} (h : ofShape? s = some i) : i.shape = s := by
  cases s with
  | r f => exact shape_of_ofRFields? h
  | i f => exact shape_of_ofIFields? h
  | s f => exact shape_of_ofSFields? h
  | b f => exact shape_of_ofBFields? h
  | u f => exact shape_of_ofUFields? h
  | j f => exact shape_of_ofJFields? h

theorem ofWord_encode (i : Instr) : Shape.ofWord i.encode = .ok i.shape :=
  Shape.ofWord_word i.code_major i.format_major

end Instr

theorem decode_encode (i : Instr) : decode i.encode = .ok i := by
  rw [decode, i.ofWord_encode]
  simp only [i.ofShape?_shape]

theorem ofWord_of_decode {w : Word} {i : Instr} (h : decode w = .ok i) :
    Shape.ofWord w = .ok i.shape := by
  unfold decode at h
  split at h
  · cases h
  · next s hs =>
    split at h
    · next j hj =>
      cases h
      rw [hs, Instr.shape_of_ofShape? hj]
    · cases h

theorem decode_eq_ok_iff {w : Word} {i : Instr} : decode w = .ok i ↔ i.encode = w := by
  constructor
  · intro h
    exact Shape.word_of_read (Shape.read_of_ofWord (ofWord_of_decode h)).2
  · rintro rfl
    exact decode_encode i

/-- Any format will do to read the fields, since the instruction found among them fixes the
format. -/
theorem decode_of_ofShape? {w : Word} {f : Format} {s : Shape} {i : Instr}
    (hr : Shape.read w f = .ok s) (hi : Instr.ofShape? s = some i) : decode w = .ok i := by
  rw [decode_eq_ok_iff, Instr.encode, Instr.shape_of_ofShape? hi]
  exact Shape.word_of_read hr

end RiscHart
