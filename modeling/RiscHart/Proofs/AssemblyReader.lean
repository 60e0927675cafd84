import RiscHart.Isa.Assembly
import RiscHart.Proofs.AssemblyLines
import RiscHart.Proofs.Numerals
import RiscHart.Proofs.Patterns

/-!
# Assembly text read back

A text is cut at blanks, commas and parentheses. The first piece is the mnemonic, which tells how
to read the others: as names of registers, as signed or plain decimal numbers, or as hexadecimal
numbers. Read in this way, the text of an instruction gives the line of the instruction, from which
its word can be assembled.
-/

namespace RiscHart

def isDelimiter (c : Char) : Bool := c ∈ [' ', ',', '(', ')']

/-- The pieces of a text between delimiters; there are no empty ones. -/
def tokens (s : String) : List String :=
  ((s.toList.splitOnP isDelimiter).filter (· ≠ [])).map String.ofList

/-- The number of the register with the given name. -/
def Reg.numberOf? (s : String) : Option Nat :=
  (List.range count).find? fun n => abiName (.ofNat 5 n) = s

def Op.ofMnemonic? (s : String) : Option Op := all.find? (·.mnemonic = s)

/-- The line that a mnemonic and its operands make. -/
def Line.ofTokens? : List String → Option Line
  | [m, a, b, c] =>
    match Op.ofMnemonic? m with
    | some (.alu f) =>
      return .alu f (← Reg.numberOf? a) (← Reg.numberOf? b) (← Reg.numberOf? c)
    | some (.imm f) =>
      return .imm f (← Reg.numberOf? a) (← Reg.numberOf? b) (← Numeral.signed? c)
    | some (.shift f) =>
      return .shift f (← Reg.numberOf? a) (← Reg.numberOf? b) (← Numeral.decimal? c)
    | some (.load f) =>
      return .load f (← Reg.numberOf? a) (← Reg.numberOf? c) (← Numeral.signed? b)
    | some (.store width) =>
      return .store width (← Reg.numberOf? a) (← Reg.numberOf? c) (← Numeral.signed? b)
    | some (.branch cond) =>
      return .branch cond (← Reg.numberOf? a) (← Reg.numberOf? b) (← Numeral.signed? c)
    | some .jalr =>
      return .jalr (← Reg.numberOf? a) (← Reg.numberOf? c) (← Numeral.signed? b)
    | _ => none
  | [m, a, b] =>
    match Op.ofMnemonic? m with
    | some .jal => return .jal (← Reg.numberOf? a) (← Numeral.signed? b)
    | some .lui => return .lui (← Reg.numberOf? a) (← Numeral.hex? b)
    | some .auipc => return .auipc (← Reg.numberOf? a) (← Numeral.hex? b)
    | _ => none
  | _ => none

/-- The word of an assembly text. -/
def assemble? (s : String) : Option Word := (Line.ofTokens? (tokens s)).map Line.word

/-! Cutting a text where a delimiter stands. -/

theorem tokens_delimiter {g : String} {d : Char} (hg : g.toList = [d]) (hd : isDelimiter d)
    (s t : String) : tokens (s ++ g ++ t) = tokens s ++ tokens t := by
  simp only [tokens, String.toList_append, hg, List.append_assoc, List.singleton_append,
    List.splitOnP_append_cons _ _ hd, List.filter_append, List.map_append]

theorem tokens_blank (s t : String) : tokens (s ++ " " ++ t) = tokens s ++ tokens t :=
  tokens_delimiter (g := " ") (d := ' ') rfl rfl s t

theorem tokens_comma (s t : String) : tokens (s ++ ", " ++ t) = tokens s ++ tokens t := by
  have hgap : s ++ ", " ++ t = s ++ "," ++ ("" ++ " " ++ t) := by
    have hcomma : ", " = "," ++ " " := rfl
    simp only [hcomma, String.empty_append, String.append_assoc]
  rw [hgap, tokens_delimiter (g := ",") (d := ',') rfl rfl, tokens_blank]
  rfl

theorem tokens_parentheses (s t : String) :
    tokens (s ++ "(" ++ t ++ ")") = tokens s ++ tokens t := by
  have hend : tokens (s ++ "(" ++ t ++ ")" ++ "") = tokens (s ++ "(" ++ t) ++ tokens "" :=
    tokens_delimiter (g := ")") (d := ')') rfl rfl _ _
  rw [String.append_empty, tokens_delimiter (g := "(") (d := '(') rfl rfl] at hend
  exact hend.trans (List.append_nil _)

/-! Texts without a delimiter. -/

theorem tokens_of_plain {s : String} (hs : s ≠ "")
    (hplain : ∀ c ∈ s.toList, isDelimiter c = false) : tokens s = [s] := by
  rw [tokens, List.splitOnP_eq_singleton hplain]
  simp [hs]

theorem tokens_mnemonic (o : Op) : tokens o.mnemonic = [o.mnemonic] := by
  have hall : ∀ o ∈ Op.all, tokens o.mnemonic = [o.mnemonic] := by decide
  exact hall o o.mem_all

theorem tokens_abiName : ∀ r : Reg, tokens r.abiName = [r.abiName] := by decide

theorem isDelimiter_of_mem_toDigits {base n : Nat} (hbase : 1 < base) (hle : base ≤ 16) {c : Char}
    (hc : c ∈ Nat.toDigits base n) : isDelimiter c = false := by
  obtain ⟨d, hd, rfl⟩ := Numeral.exists_digit_of_mem_toDigits hbase hc
  exact (by decide : ∀ d < 16, isDelimiter d.digitChar = false) d (by omega)

theorem tokens_decimal (n : Nat) : tokens (Numeral.decimal n) = [Numeral.decimal n] := by
  apply tokens_of_plain
  · simp [Numeral.decimal]
  · intro c hc
    rw [Numeral.decimal, String.toList_ofList] at hc
    exact isDelimiter_of_mem_toDigits (by omega) (by omega) hc

theorem tokens_signed (z : Int) : tokens (Numeral.signed z) = [Numeral.signed z] := by
  cases z with
  | ofNat n => exact tokens_decimal n
  | negSucc n =>
    apply tokens_of_plain
    · simp [Numeral.signed]
    · intro c hc
      simp only [Numeral.signed, Numeral.decimal, String.toList_append, List.mem_append,
        String.toList_ofList] at hc
      obtain hc | hc := hc
      · obtain rfl : c = '-' := List.mem_singleton.mp hc
        rfl
      · exact isDelimiter_of_mem_toDigits (by omega) (by omega) hc

theorem tokens_hex (n : Nat) : tokens (Numeral.hex n) = [Numeral.hex n] := by
  apply tokens_of_plain
  · simp [Numeral.hex]
  · intro c hc
    simp only [Numeral.hex, String.toList_append, List.mem_append, String.toList_ofList] at hc
    obtain hc | hc := hc
    · obtain rfl | rfl : c = '0' ∨ c = 'x' := by simpa using hc
      · rfl
      · rfl
    · exact isDelimiter_of_mem_toDigits (by omega) (by omega) hc

/-- The operands of an instruction in the order of its text. -/
def Instr.words : Instr → List String
  | alu _ rd rs1 rs2 => [rd.abiName, rs1.abiName, rs2.abiName]
  | imm _ rd rs1 value => [rd.abiName, rs1.abiName, Numeral.signed value.toInt]
  | shift _ rd rs1 amount => [rd.abiName, rs1.abiName, Numeral.decimal amount.toNat]
  | load _ rd base offset => [rd.abiName, Numeral.signed offset.toInt, base.abiName]
  | store _ source base offset => [source.abiName, Numeral.signed offset.toInt, base.abiName]
  | branch _ rs1 rs2 half => [rs1.abiName, rs2.abiName, Numeral.signed (half ++ 0#1).toInt]
  | jal rd half => [rd.abiName, Numeral.signed (half ++ 0#1).toInt]
  | jalr rd base offset => [rd.abiName, Numeral.signed offset.toInt, base.abiName]
  | lui rd value => [rd.abiName, Numeral.hex value.toNat]
  | auipc rd value => [rd.abiName, Numeral.hex value.toNat]

theorem tokens_address (base : Reg) (offset : BitVec 12) :
    tokens (Instr.address base offset) = [Numeral.signed offset.toInt, base.abiName] := by
  rw [Instr.address, tokens_parentheses, Imm.toInt_short, tokens_signed, tokens_abiName]
  rfl

theorem tokens_text (i : Instr) : tokens i.text = i.mnemonic :: i.words := by
  rw [Instr.text, tokens_blank, Instr.mnemonic, tokens_mnemonic]
  cases i <;>
    simp only [Instr.operands, tokens_comma, tokens_abiName, tokens_signed, tokens_decimal,
      tokens_hex, tokens_address, Imm.toInt_short, Imm.toInt_branch, Imm.toInt_jump] <;>
    rfl

theorem Reg.numberOf?_abiName : ∀ r : Reg, numberOf? r.abiName = some r.toNat := by decide

theorem Op.ofMnemonic?_mnemonic (o : Op) : ofMnemonic? o.mnemonic = some o := by
  have hall : ∀ o ∈ all, ofMnemonic? o.mnemonic = some o := by decide
  exact hall o o.mem_all

/-- The pieces of a text are read as the line of the instruction that was written. -/
theorem ofTokens?_text (i : Instr) : Line.ofTokens? (tokens i.text) = some i.line := by
  rw [tokens_text]
  have hop : Op.ofMnemonic? i.mnemonic = some i.op := i.op.ofMnemonic?_mnemonic
  cases i <;>
    simp only [Instr.words, Line.ofTokens?, hop, Instr.op, Reg.numberOf?_abiName,
      Numeral.signed?_signed, Numeral.decimal?_decimal, Numeral.hex?_hex] <;>
    rfl

theorem assemble?_text (i : Instr) : assemble? i.text = some i.encode := by
  rw [assemble?, ofTokens?_text, Option.map_some, i.line.word_eq_encode, i.instr_line]

theorem disassemble_of_decode {w : Word} {i : Instr} (hw : decode w = .ok i) :
    disassemble w = i.text := by
  rw [disassemble, hw]

theorem text_ne_unknown (i : Instr) : i.text ≠ "unknown" := by
  intro h
  have hread := assemble?_text i
  have hnone : assemble? "unknown" = none := by decide
  rw [h, hnone] at hread
  cases hread

/-- The text of a word that is decoded can be assembled to the word again, so no two such words
have the same text; and `unknown` is the text of exactly those that are not decoded. -/
theorem disassemble_lossless :
    (∀ w w' i j, decode w = .ok i → decode w' = .ok j → disassemble w = disassemble w' →
      w = w') ∧
    (∀ w, disassemble w = "unknown" ↔ ∃ e, decode w = .error e) ∧
    (∀ w i, decode w = .ok i → assemble? (disassemble w) = some w) := by
  have hback : ∀ w i, decode w = .ok i → assemble? (disassemble w) = some w := by
    intro w i hw
    rw [disassemble_of_decode hw, assemble?_text, decode_eq_ok_iff.mp hw]
  refine ⟨?_, ?_, hback⟩
  · intro w w' i j hw hw' htext
    have hread := hback w i hw
    rw [htext, hback w' j hw'] at hread
    exact (Option.some.inj hread).symm
  · intro w
    cases hw : decode w with
    | ok i =>
      rw [disassemble_of_decode hw]
      exact iff_of_false (text_ne_unknown i) nofun
    | error e =>
      rw [disassemble, hw]
      exact iff_of_true rfl ⟨e, rfl⟩

/-- An offset with a sign, between register names one of which starts with the other. -/
theorem disassemble_lossless_offset :
    decode 0xFFFD2483#32 = .ok (.load .lw 9 26 (-1)) ∧
      disassemble 0xFFFD2483#32 = "lw s1, -1(s10)" ∧
      assemble? "lw s1, -1(s10)" = some 0xFFFD2483#32 ∧
      ∀ w i, decode w = .ok i → disassemble w = "lw s1, -1(s10)" → w = 0xFFFD2483#32 := by
  have hw : decode 0xFFFD2483#32 = .ok (.load .lw 9 26 (-1)) := by rfl
  have htext : disassemble 0xFFFD2483#32 = "lw s1, -1(s10)" := by decide
  obtain ⟨hinj, -, hback⟩ := disassemble_lossless
  refine ⟨hw, htext, ?_, ?_⟩
  · rw [← htext]
    exact hback _ _ hw
  · intro w i hi hsame
    exact hinj w _ i _ hi hw (hsame.trans htext.symm)

end RiscHart
