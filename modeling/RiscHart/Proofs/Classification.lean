import RiscHart.Proofs.DecodeEncode
import RiscHart.Proofs.Patterns

/-!
# What decoding accepts

A word is decoded exactly when it belongs to an operation of the table, that operation is the only
one, and the operands are those that stand in the word. A word that belongs to none is refused for
one of three reasons, which are looked for in a fixed order.
-/

namespace RiscHart

theorem Instr.matches_encode (i : Instr) : i.op.pattern.Matches i.encode := by
  cases i with
  | alu f rd rs1 rs2 =>
    have h := RFields.ofWord_word ⟨f.funct7, rs2, rs1, f.funct3, rd, Opcode.op.code⟩
    exact (Op.matches_alu_iff f _).mpr
      ⟨congrArg RFields.opcode h, congrArg RFields.funct3 h, congrArg RFields.funct7 h⟩
  | imm f rd rs1 value =>
    have h := IFields.ofWord_word ⟨value, rs1, f.alu.funct3, rd, Opcode.opImm.code⟩
    exact (Op.matches_imm_iff f _).mpr ⟨congrArg IFields.opcode h, congrArg IFields.funct3 h⟩
  | shift f rd rs1 amount =>
    have h := IFields.ofWord_word
      ⟨f.alu.funct7 ++ amount, rs1, f.alu.funct3, rd, Opcode.opImm.code⟩
    have h7 := congrArg IFields.funct7 h
    rw [IFields.funct7_ofWord] at h7
    exact (Op.matches_shift_iff f _).mpr ⟨congrArg IFields.opcode h, congrArg IFields.funct3 h,
      h7.trans BitVec.extractLsb'_append_eq_left⟩
  | load f rd base offset =>
    have h := IFields.ofWord_word ⟨offset, base, f.funct3, rd, Opcode.load.code⟩
    exact (Op.matches_load_iff f _).mpr ⟨congrArg IFields.opcode h, congrArg IFields.funct3 h⟩
  | store width source base offset =>
    have h := SFields.ofWord_word ⟨offset.extractLsb' 5 7, source, base, width.funct3,
      offset.extractLsb' 0 5, Opcode.store.code⟩
    exact (Op.matches_store_iff width _).mpr
      ⟨congrArg SFields.opcode h, congrArg SFields.funct3 h⟩
  | branch cond rs1 rs2 half =>
    have h := BFields.ofWord_word ⟨half.extractLsb' 11 1, half.extractLsb' 4 6, rs2, rs1,
      cond.funct3, half.extractLsb' 0 4, half.extractLsb' 10 1, Opcode.branch.code⟩
    exact (Op.matches_branch_iff cond _).mpr
      ⟨congrArg BFields.opcode h, congrArg BFields.funct3 h⟩
  | jal rd half =>
    have h := JFields.ofWord_word ⟨half.extractLsb' 19 1, half.extractLsb' 0 10,
      half.extractLsb' 10 1, half.extractLsb' 11 8, rd, Opcode.jal.code⟩
    exact (Op.matches_jal_iff _).mpr (congrArg JFields.opcode h)
  | jalr rd base offset =>
    have h := IFields.ofWord_word ⟨offset, base, jalrFunct3, rd, Opcode.jalr.code⟩
    exact (Op.matches_jalr_iff _).mpr ⟨congrArg IFields.opcode h, congrArg IFields.funct3 h⟩
  | lui rd value =>
    have h := UFields.ofWord_word ⟨value, rd, Opcode.lui.code⟩
    exact (Op.matches_lui_iff _).mpr (congrArg UFields.opcode h)
  | auipc rd value =>
    have h := UFields.ofWord_word ⟨value, rd, Opcode.auipc.code⟩
    exact (Op.matches_auipc_iff _).mpr (congrArg UFields.opcode h)

namespace Op

/-- The instruction of an operation with the operands that stand in a word. -/
def instr (w : Word) : Op → Instr
  | alu f => .alu f (Field.rd.get w) (Field.rs1.get w) (Field.rs2.get w)
  | imm f => .imm f (Field.rd.get w) (Field.rs1.get w) (IFields.ofWord w).imm
  | shift f => .shift f (Field.rd.get w) (Field.rs1.get w) (IFields.ofWord w).shamt
  | load f => .load f (Field.rd.get w) (Field.rs1.get w) (IFields.ofWord w).imm
  | store width => .store width (Field.rs2.get w) (Field.rs1.get w) (SFields.ofWord w).imm
  | branch cond => .branch cond (Field.rs1.get w) (Field.rs2.get w) (BFields.ofWord w).half
  | jal => .jal (Field.rd.get w) (JFields.ofWord w).half
  | jalr => .jalr (Field.rd.get w) (Field.rs1.get w) (IFields.ofWord w).imm
  | lui => .lui (Field.rd.get w) (UFields.ofWord w).imm
  | auipc => .auipc (Field.rd.get w) (UFields.ofWord w).imm

theorem op_instr (o : Op) (w : Word) : (o.instr w).op = o := by cases o <;> rfl

end Op

theorem decode_of_matches {o : Op} {w : Word} (h : o.pattern.Matches w) :
    decode w = .ok (o.instr w) := by
  cases o with
  | alu f =>
    obtain ⟨ho, h3, h7⟩ := (Op.matches_alu_iff f w).mp h
    have hf := AluOp.ofCodes?_eq_some_iff.mpr ⟨h3.symm, h7.symm⟩
    have hi : Instr.ofRFields? (.ofWord w) = some ((Op.alu f).instr w) := by
      simp only [Op.instr, Instr.ofRFields?, RFields.ofWord, ho, Opcode.ofCode?_code, hf,
        Option.map_some]
    exact decode_of_ofShape? (f := .r) rfl hi
  | imm f =>
    obtain ⟨ho, h3⟩ := (Op.matches_imm_iff f w).mp h
    have hf := ImmOp.ofFunct3?_eq_some_iff.mpr h3.symm
    have hi : Instr.ofIFields? (.ofWord w) = some ((Op.imm f).instr w) := by
      simp only [Op.instr, Instr.ofIFields?, IFields.ofWord, ho, Opcode.ofCode?_code, hf]
    exact decode_of_ofShape? (f := .i) rfl hi
  | shift f =>
    obtain ⟨ho, h3, h7⟩ := (Op.matches_shift_iff f w).mp h
    have hnone : ImmOp.ofFunct3? f.alu.funct3 = none := by cases f <;> rfl
    have hf := ShiftOp.ofCodes?_eq_some_iff.mpr ⟨rfl, h7.symm⟩
    have hi : Instr.ofIFields? (.ofWord w) = some ((Op.shift f).instr w) := by
      rw [Instr.ofIFields?, IFields.funct7_ofWord]
      simp only [Op.instr, IFields.ofWord, ho, h3, Opcode.ofCode?_code, hnone, hf, Option.map_some]
    exact decode_of_ofShape? (f := .i) rfl hi
  | load f =>
    obtain ⟨ho, h3⟩ := (Op.matches_load_iff f w).mp h
    have hf := LoadOp.ofFunct3?_eq_some_iff.mpr h3.symm
    have hi : Instr.ofIFields? (.ofWord w) = some ((Op.load f).instr w) := by
      simp only [Op.instr, Instr.ofIFields?, IFields.ofWord, ho, Opcode.ofCode?_code, hf,
        Option.map_some]
    exact decode_of_ofShape? (f := .i) rfl hi
  | store width =>
    obtain ⟨ho, h3⟩ := (Op.matches_store_iff width w).mp h
    have hf := Width.ofFunct3?_eq_some_iff.mpr h3.symm
    have hi : Instr.ofSFields? (.ofWord w) = some ((Op.store width).instr w) := by
      simp only [Op.instr, Instr.ofSFields?, SFields.ofWord, ho, Opcode.ofCode?_code, hf,
        Option.map_some]
    exact decode_of_ofShape? (f := .s) rfl hi
  | branch cond =>
    obtain ⟨ho, h3⟩ := (Op.matches_branch_iff cond w).mp h
    have hf := Condition.ofFunct3?_eq_some_iff.mpr h3.symm
    have hi : Instr.ofBFields? (.ofWord w) = some ((Op.branch cond).instr w) := by
      simp only [Op.instr, Instr.ofBFields?, BFields.ofWord, ho, Opcode.ofCode?_code, hf,
        Option.map_some]
    exact decode_of_ofShape? (f := .b) rfl hi
  | jal =>
    have ho := (Op.matches_jal_iff w).mp h
    have hi : Instr.ofJFields? (.ofWord w) = some (Op.jal.instr w) := by
      simp only [Op.instr, Instr.ofJFields?, JFields.ofWord, ho, Opcode.ofCode?_code]
    exact decode_of_ofShape? (f := .j) rfl hi
  | jalr =>
    obtain ⟨ho, h3⟩ := (Op.matches_jalr_iff w).mp h
    have hi : Instr.ofIFields? (.ofWord w) = some (Op.jalr.instr w) := by
      simp only [Op.instr, Instr.ofIFields?, IFields.ofWord, ho, h3, Opcode.ofCode?_code, if_true]
    exact decode_of_ofShape? (f := .i) rfl hi
  | lui =>
    have ho := (Op.matches_lui_iff w).mp h
    have hi : Instr.ofUFields? (.ofWord w) = some (Op.lui.instr w) := by
      simp only [Op.instr, Instr.ofUFields?, UFields.ofWord, ho, Opcode.ofCode?_code]
    exact decode_of_ofShape? (f := .u) rfl hi
  | auipc =>
    have ho := (Op.matches_auipc_iff w).mp h
    have hi : Instr.ofUFields? (.ofWord w) = some (Op.auipc.instr w) := by
      simp only [Op.instr, Instr.ofUFields?, UFields.ofWord, ho, Opcode.ofCode?_code]
    exact decode_of_ofShape? (f := .u) rfl hi

theorem matches_of_decode {w : Word} {i : Instr} (h : decode w = .ok i) :
    i.op.pattern.Matches w := by
  rw [← decode_eq_ok_iff.mp h]
  exact i.matches_encode

/-- No word belongs to two operations. -/
theorem op_eq_of_matches {o o' : Op} {w : Word} (h : o.pattern.Matches w)
    (h' : o'.pattern.Matches w) : o = o' := by
  have hi := (decode_of_matches h).symm.trans (decode_of_matches h')
  rw [← o.op_instr w, Except.ok.inj hi, o'.op_instr w]

/-- A decoded word stands for its operation with the operands that stand in it. -/
theorem instr_of_decode {w : Word} {i : Instr} (h : decode w = .ok i) : i.op.instr w = i :=
  Except.ok.inj ((decode_of_matches (matches_of_decode h)).symm.trans h)

theorem exists_decode_iff (w : Word) :
    (∃ i, decode w = .ok i) ↔ ∃ o : Op, o.pattern.Matches w := by
  constructor
  · rintro ⟨i, hi⟩
    exact ⟨i.op, matches_of_decode hi⟩
  · rintro ⟨o, ho⟩
    exact ⟨o.instr w, decode_of_matches ho⟩

/-! The refused words, by reason. -/

/-- The nine opcodes of the base instruction set. -/
def majorOpcodes : List (BitVec 7) :=
  [0b0110111, 0b0010111, 0b1101111, 0b1100111, 0b1100011, 0b0000011, 0b0100011, 0b0010011,
    0b0110011]

theorem mem_majorOpcodes {c : BitVec 7} : c ∈ majorOpcodes ↔ ∃ o : Opcode, o.code = c := by
  constructor
  · intro h
    simp only [majorOpcodes, List.mem_cons, List.not_mem_nil, or_false] at h
    rcases h with rfl | rfl | rfl | rfl | rfl | rfl | rfl | rfl | rfl
    · exact ⟨.lui, rfl⟩
    · exact ⟨.auipc, rfl⟩
    · exact ⟨.jal, rfl⟩
    · exact ⟨.jalr, rfl⟩
    · exact ⟨.branch, rfl⟩
    · exact ⟨.load, rfl⟩
    · exact ⟨.store, rfl⟩
    · exact ⟨.opImm, rfl⟩
    · exact ⟨.op, rfl⟩
  · rintro ⟨o, rfl⟩
    cases o <;> decide

theorem decode_of_short {w : Word} (h : w.extractLsb' 0 2 ≠ 3#2) :
    decode w = .error (.notImplemented w) := by
  have hlen : w &&& lengthMask ≠ fullLength := fun hw => h ((fullLength_iff w).mp hw)
  have hf : Format.ofWord? w = some .compressed := if_pos hlen
  simp only [decode, Shape.ofWord, hf, Shape.read]

theorem decode_of_unassigned {w : Word} (hlow : w.extractLsb' 0 2 = 3#2)
    (h : w.extractLsb' 0 7 ∉ majorOpcodes) :
    decode w = .error (.unknownOpcode w ((w.extractLsb' 0 7).setWidth 32)) := by
  have hnone : Opcode.ofCode? (Field.opcode.get w) = none := by
    cases hc : Opcode.ofCode? (Field.opcode.get w) with
    | none => rfl
    | some o =>
      have hcode := Opcode.ofCode?_eq_some_iff.mp hc
      rw [Field.get_opcode] at hcode
      exact absurd (mem_majorOpcodes.mpr ⟨o, hcode⟩) h
  have hf : Format.ofWord? w = none := by
    rw [Format.ofWord?, if_neg (not_not_intro ((fullLength_iff w).mpr hlow)), hnone]
    rfl
  have hop : Field.opcode.extract w = (w.extractLsb' 0 7).setWidth 32 := by
    rw [← Field.get_opcode, Field.setWidth_get]
  simp only [decode, Shape.ofWord, hf, hop]

theorem low_of_assigned {w : Word} (h : w.extractLsb' 0 7 ∈ majorOpcodes) :
    w.extractLsb' 0 2 = 3#2 := by
  obtain ⟨o, ho⟩ := mem_majorOpcodes.mp h
  have hlow : w.extractLsb' 0 2 = o.code.extractLsb' 0 2 := by
    rw [ho, extractLsb'_nested w (by omega)]
  rw [hlow]
  cases o <;> rfl

theorem decode_of_unmatched {w : Word} (hop : w.extractLsb' 0 7 ∈ majorOpcodes)
    (h : ∀ o : Op, ¬ o.pattern.Matches w) : decode w = .error (.illegal w) := by
  obtain ⟨o, ho⟩ := mem_majorOpcodes.mp hop
  have hf : Format.ofWord? w = some o.format :=
    Format.ofWord?_of_opcode (ho.trans (Field.get_opcode w).symm)
  obtain ⟨s, hs⟩ : ∃ s, Shape.read w o.format = .ok s := by cases o <;> exact ⟨_, rfl⟩
  cases hi : Instr.ofShape? s with
  | none => simp only [decode, Shape.ofWord, hf, hs, hi]
  | some i => exact absurd (matches_of_decode (decode_of_ofShape? hs hi)) (h i.op)

/-- Decoding sorts all words: those of the table into their operations, the others by what is wrong
with them. Length bits come before the opcode, and the opcode before the minor codes. -/
theorem decode_classification (w : Word) :
    ((∃ i, decode w = .ok i) ↔ ∃ o : Op, o.pattern.Matches w) ∧
    (∀ o o' : Op, o.pattern.Matches w → o'.pattern.Matches w → o = o') ∧
    (∀ i, decode w = .ok i → i.encode = w ∧ i.op.pattern.Matches w ∧
      Shape.ofWord w = .ok i.shape ∧ Format.ofWord? w = some i.shape.format ∧
      i.shape.opcode = w.extractLsb' 0 7) ∧
    (decode w = .error (.notImplemented w) ↔ w.extractLsb' 0 2 ≠ 3#2) ∧
    (decode w = .error (.unknownOpcode w ((w.extractLsb' 0 7).setWidth 32)) ↔
      w.extractLsb' 0 2 = 3#2 ∧ w.extractLsb' 0 7 ∉ majorOpcodes) ∧
    (decode w = .error (.illegal w) ↔
      w.extractLsb' 0 7 ∈ majorOpcodes ∧ ∀ o : Op, ¬ o.pattern.Matches w) ∧
    (∀ e, decode w = .error e → e = .notImplemented w ∨ e = .illegal w ∨
      e = .unknownOpcode w ((w.extractLsb' 0 7).setWidth 32)) := by
  refine ⟨exists_decode_iff w, fun o o' => op_eq_of_matches, ?_, ?_⟩
  · intro i hi
    have hs := ofWord_of_decode hi
    obtain ⟨hf, hr⟩ := Shape.read_of_ofWord hs
    have hop := Shape.opcode_of_read hr
    rw [Field.get_opcode] at hop
    exact ⟨decode_eq_ok_iff.mp hi, matches_of_decode hi, hs, hf, hop⟩
  -- the four remaining statements: the three reasons and the table cover all words
  by_cases hlow : w.extractLsb' 0 2 = 3#2
  · by_cases hop : w.extractLsb' 0 7 ∈ majorOpcodes
    · by_cases hm : ∃ o : Op, o.pattern.Matches w
      · obtain ⟨i, hi⟩ := (exists_decode_iff w).mpr hm
        simp [hi, hlow, hop, hm]
      · have hm' := not_exists.mp hm
        simp [decode_of_unmatched hop hm', hlow, hop, hm']
    · simp [decode_of_unassigned hlow hop, hlow, hop]
  · have hop : w.extractLsb' 0 7 ∉ majorOpcodes := fun h => hlow (low_of_assigned h)
    simp [decode_of_short hlow, hlow, hop]

/-- A shift with a code of its own, and the same word with an unassigned code in its place. -/
theorem decode_classification_shift :
    (Op.shift .sra).pattern.Matches 0x41F5D513#32 ∧
      (∃ i, decode 0x41F5D513#32 = .ok i) ∧
      decode 0x43F5D513#32 = .error (.illegal 0x43F5D513#32) := by
  have hm : (Op.shift .sra).pattern.Matches 0x41F5D513#32 := by decide
  refine ⟨hm, (decode_classification _).1.mpr ⟨_, hm⟩, ?_⟩
  refine (decode_classification _).2.2.2.2.2.1.mpr ⟨by decide, ?_⟩
  have hall : ∀ o ∈ Op.all, ¬ o.pattern.Matches 0x43F5D513#32 := by decide
  exact fun o => hall o o.mem_all

end RiscHart
