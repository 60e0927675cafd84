import RiscHart.Proofs.Fragments

/-!
# The layouts of the formats

A shape in plain numbers has registers, codes and fragments of any size, and signed immediates
where a format keeps its immediate in one piece. Laying it out is a sum with a power of two for
each field. In each of the six formats reading any word gives a shape whose numbers are in range,
laying these out gives back the word, and nothing else in range has that word.
-/

namespace RiscHart

/-- The fields of a shape as numbers, which need not fit. -/
inductive LooseShape where
  | r (funct7 rs2 rs1 funct3 rd opcode : Nat)
  | i (imm : Int) (rs1 funct3 rd opcode : Nat)
  | s (imm11_5 rs2 rs1 funct3 imm4_0 opcode : Nat)
  | b (imm12 imm10_5 rs2 rs1 funct3 imm4_1 imm11 opcode : Nat)
  | u (imm : Int) (rd opcode : Nat)
  | j (imm20 imm10_1 imm11 imm19_12 rd opcode : Nat)
  deriving DecidableEq

namespace LooseShape

def format : LooseShape → Format
  | r _ _ _ _ _ _ => .r
  | i _ _ _ _ _ => .i
  | s _ _ _ _ _ _ => .s
  | b _ _ _ _ _ _ _ _ => .b
  | u _ _ _ => .u
  | j _ _ _ _ _ _ => .j

/-- Whether every number is one that its field can hold. -/
def InRange : LooseShape → Prop
  | r funct7 rs2 rs1 funct3 rd opcode =>
    funct7 < 2 ^ 7 ∧ rs2 < 32 ∧ rs1 < 32 ∧ funct3 < 2 ^ 3 ∧ rd < 32 ∧ opcode < 2 ^ 7
  | i imm rs1 funct3 rd opcode =>
    FitsSigned 12 imm ∧ rs1 < 32 ∧ funct3 < 2 ^ 3 ∧ rd < 32 ∧ opcode < 2 ^ 7
  | s imm11_5 rs2 rs1 funct3 imm4_0 opcode =>
    imm11_5 < 2 ^ 7 ∧ rs2 < 32 ∧ rs1 < 32 ∧ funct3 < 2 ^ 3 ∧ imm4_0 < 2 ^ 5 ∧ opcode < 2 ^ 7
  | b imm12 imm10_5 rs2 rs1 funct3 imm4_1 imm11 opcode =>
    imm12 < 2 ^ 1 ∧ imm10_5 < 2 ^ 6 ∧ rs2 < 32 ∧ rs1 < 32 ∧ funct3 < 2 ^ 3 ∧ imm4_1 < 2 ^ 4 ∧
      imm11 < 2 ^ 1 ∧ opcode < 2 ^ 7
  | u imm rd opcode => FitsSigned 32 imm ∧ 4096 ∣ imm ∧ rd < 32 ∧ opcode < 2 ^ 7
  | j imm20 imm10_1 imm11 imm19_12 rd opcode =>
    imm20 < 2 ^ 1 ∧ imm10_1 < 2 ^ 10 ∧ imm11 < 2 ^ 1 ∧ imm19_12 < 2 ^ 8 ∧ rd < 32 ∧ opcode < 2 ^ 7

/-- The fields at their places. A short immediate is stored by its lowest twelve bits, and an upper
one by its highest twenty. -/
def number : LooseShape → Nat
  | r funct7 rs2 rs1 funct3 rd opcode =>
    funct7 * 2 ^ 25 + rs2 * 2 ^ 20 + rs1 * 2 ^ 15 + funct3 * 2 ^ 12 + rd * 2 ^ 7 + opcode
  | i imm rs1 funct3 rd opcode =>
    wrap imm % 2 ^ 12 * 2 ^ 20 + rs1 * 2 ^ 15 + funct3 * 2 ^ 12 + rd * 2 ^ 7 + opcode
  | s imm11_5 rs2 rs1 funct3 imm4_0 opcode =>
    imm11_5 * 2 ^ 25 + rs2 * 2 ^ 20 + rs1 * 2 ^ 15 + funct3 * 2 ^ 12 + imm4_0 * 2 ^ 7 + opcode
  | b imm12 imm10_5 rs2 rs1 funct3 imm4_1 imm11 opcode =>
    imm12 * 2 ^ 31 + imm10_5 * 2 ^ 25 + rs2 * 2 ^ 20 + rs1 * 2 ^ 15 + funct3 * 2 ^ 12 +
      imm4_1 * 2 ^ 8 + imm11 * 2 ^ 7 + opcode
  | u imm rd opcode => wrap imm / 2 ^ 12 * 2 ^ 12 + rd * 2 ^ 7 + opcode
  | j imm20 imm10_1 imm11 imm19_12 rd opcode =>
    imm20 * 2 ^ 31 + imm10_1 * 2 ^ 21 + imm11 * 2 ^ 20 + imm19_12 * 2 ^ 12 + rd * 2 ^ 7 + opcode

def word (n : LooseShape) : Word := .ofNat 32 n.number

/-- The shape whose fields are the numbers, cut down to what the fields hold. -/
def shape : LooseShape → Shape
  | r funct7 rs2 rs1 funct3 rd opcode =>
    .r ⟨.ofNat 7 funct7, .ofNat 5 rs2, .ofNat 5 rs1, .ofNat 3 funct3, .ofNat 5 rd, .ofNat 7 opcode⟩
  | i imm rs1 funct3 rd opcode =>
    .i ⟨.ofInt 12 imm, .ofNat 5 rs1, .ofNat 3 funct3, .ofNat 5 rd, .ofNat 7 opcode⟩
  | s imm11_5 rs2 rs1 funct3 imm4_0 opcode =>
    .s ⟨.ofNat 7 imm11_5, .ofNat 5 rs2, .ofNat 5 rs1, .ofNat 3 funct3, .ofNat 5 imm4_0,
      .ofNat 7 opcode⟩
  | b imm12 imm10_5 rs2 rs1 funct3 imm4_1 imm11 opcode =>
    .b ⟨.ofNat 1 imm12, .ofNat 6 imm10_5, .ofNat 5 rs2, .ofNat 5 rs1, .ofNat 3 funct3,
      .ofNat 4 imm4_1, .ofNat 1 imm11, .ofNat 7 opcode⟩
  | u imm rd opcode => .u ⟨(BitVec.ofInt 32 imm).extractLsb' 12 20, .ofNat 5 rd, .ofNat 7 opcode⟩
  | j imm20 imm10_1 imm11 imm19_12 rd opcode =>
    .j ⟨.ofNat 1 imm20, .ofNat 10 imm10_1, .ofNat 1 imm11, .ofNat 8 imm19_12, .ofNat 5 rd,
      .ofNat 7 opcode⟩

end LooseShape

namespace Imm

/-- The lowest twelve bits of a short immediate are the stored ones. -/
theorem toNat_short_mod (imm : BitVec 12) : (short imm).toNat % 2 ^ 12 = imm.toNat := by
  have hlow : (short imm).setWidth 12 = imm := by
    rw [short, BitVec.signExtend, setWidth_ofInt (by omega), BitVec.ofInt_toInt]
  rw [← BitVec.toNat_setWidth, hlow]

/-- A multiple of 4096 is the upper immediate that its upper bits make. -/
theorem upper_extract {z : Int} (hz : 4096 ∣ z) :
    upper ((BitVec.ofInt 32 z).extractLsb' 12 20) = BitVec.ofInt 32 z := by
  apply BitVec.eq_of_toNat_eq
  rw [toNat_upper, BitVec.extractLsb'_toNat, Nat.shiftRight_eq_div_pow, ← wrap_eq_toNat, wrap]
  omega

end Imm

namespace Shape

/-- The fields of a shape in numbers. -/
def loose : Shape → LooseShape
  | r f => .r f.funct7.toNat f.rs2.toNat f.rs1.toNat f.funct3.toNat f.rd.toNat f.opcode.toNat
  | i f => .i (Imm.short f.imm).toInt f.rs1.toNat f.funct3.toNat f.rd.toNat f.opcode.toNat
  | s f =>
    .s f.imm11_5.toNat f.rs2.toNat f.rs1.toNat f.funct3.toNat f.imm4_0.toNat f.opcode.toNat
  | b f =>
    .b f.imm12.toNat f.imm10_5.toNat f.rs2.toNat f.rs1.toNat f.funct3.toNat f.imm4_1.toNat
      f.imm11.toNat f.opcode.toNat
  | u f => .u (Imm.upper f.imm).toInt f.rd.toNat f.opcode.toNat
  | j f =>
    .j f.imm20.toNat f.imm10_1.toNat f.imm11.toNat f.imm19_12.toNat f.rd.toNat f.opcode.toNat

theorem format_loose (t : Shape) : t.loose.format = t.format := by cases t <;> rfl

/-- The numbers of a shape fit. -/
theorem inRange_loose (t : Shape) : t.loose.InRange := by
  cases t with
  | r f =>
    exact ⟨f.funct7.isLt, f.rs2.isLt, f.rs1.isLt, f.funct3.isLt, f.rd.isLt, f.opcode.isLt⟩
  | i f =>
    refine ⟨?_, f.rs1.isLt, f.funct3.isLt, f.rd.isLt, f.opcode.isLt⟩
    rw [Imm.toInt_short]
    exact fitsSigned_toInt f.imm
  | s f =>
    exact ⟨f.imm11_5.isLt, f.rs2.isLt, f.rs1.isLt, f.funct3.isLt, f.imm4_0.isLt, f.opcode.isLt⟩
  | b f =>
    exact ⟨f.imm12.isLt, f.imm10_5.isLt, f.rs2.isLt, f.rs1.isLt, f.funct3.isLt, f.imm4_1.isLt,
      f.imm11.isLt, f.opcode.isLt⟩
  | u f => exact ⟨fitsSigned_toInt _, Imm.dvd_toInt_upper f.imm, f.rd.isLt, f.opcode.isLt⟩
  | j f =>
    exact ⟨f.imm20.isLt, f.imm10_1.isLt, f.imm11.isLt, f.imm19_12.isLt, f.rd.isLt, f.opcode.isLt⟩

/-- The numbers of a shape, each at its place, add up to its word. -/
theorem number_loose (t : Shape) : t.loose.number = t.word.toNat := by
  cases t with
  | r f =>
    change _ = (f.funct7 ++ f.rs2 ++ f.rs1 ++ f.funct3 ++ f.rd ++ f.opcode).toNat
    simp only [toNat_append, loose, LooseShape.number]
    omega
  | i f =>
    change _ = (f.imm ++ f.rs1 ++ f.funct3 ++ f.rd ++ f.opcode).toNat
    simp only [toNat_append, loose, LooseShape.number, wrap_toInt, Imm.toNat_short_mod]
    omega
  | s f =>
    change _ = (f.imm11_5 ++ f.rs2 ++ f.rs1 ++ f.funct3 ++ f.imm4_0 ++ f.opcode).toNat
    simp only [toNat_append, loose, LooseShape.number]
    omega
  | b f =>
    change _ = (f.imm12 ++ f.imm10_5 ++ f.rs2 ++ f.rs1 ++ f.funct3 ++ f.imm4_1 ++ f.imm11 ++
      f.opcode).toNat
    simp only [toNat_append, loose, LooseShape.number]
    omega
  | u f =>
    change _ = (f.imm ++ f.rd ++ f.opcode).toNat
    simp only [toNat_append, loose, LooseShape.number, wrap_toInt, Imm.toNat_upper]
    omega
  | j f =>
    change _ = (f.imm20 ++ f.imm10_1 ++ f.imm11 ++ f.imm19_12 ++ f.rd ++ f.opcode).toNat
    simp only [toNat_append, loose, LooseShape.number]
    omega

end Shape

namespace LooseShape

theorem format_shape (n : LooseShape) : n.shape.format = n.format := by cases n <;> rfl

/-- Nothing of a shape in range is cut off. -/
theorem loose_shape {n : LooseShape} (h : n.InRange) : n.shape.loose = n := by
  cases n with
  | r funct7 rs2 rs1 funct3 rd opcode =>
    obtain ⟨h7, h2, h1, h3, hd, ho⟩ := h
    simp only [shape, Shape.loose, BitVec.toNat_ofNat, Nat.mod_eq_of_lt, h7, h2, h1, h3, hd, ho]
  | i imm rs1 funct3 rd opcode =>
    obtain ⟨hi, h1, h3, hd, ho⟩ := h
    have himm : (Imm.short (.ofInt 12 imm)).toInt = imm :=
      (Imm.toInt_short _).trans (toInt_ofInt_of_fits (by omega) hi)
    simp only [shape, Shape.loose, himm, BitVec.toNat_ofNat, Nat.mod_eq_of_lt, h1, h3, hd, ho]
  | s imm11_5 rs2 rs1 funct3 imm4_0 opcode =>
    obtain ⟨h11, h2, h1, h3, h4, ho⟩ := h
    simp only [shape, Shape.loose, BitVec.toNat_ofNat, Nat.mod_eq_of_lt, h11, h2, h1, h3, h4, ho]
  | b imm12 imm10_5 rs2 rs1 funct3 imm4_1 imm11 opcode =>
    obtain ⟨h12, h10, h2, h1, h3, h4, h11, ho⟩ := h
    simp only [shape, Shape.loose, BitVec.toNat_ofNat, Nat.mod_eq_of_lt, h12, h10, h2, h1, h3, h4,
      h11, ho]
  | u imm rd opcode =>
    obtain ⟨hi, hdvd, hd, ho⟩ := h
    have himm : (Imm.upper ((BitVec.ofInt 32 imm).extractLsb' 12 20)).toInt = imm := by
      rw [Imm.upper_extract hdvd]
      exact toInt_ofInt_of_fits (by omega) hi
    simp only [shape, Shape.loose, himm, BitVec.toNat_ofNat, Nat.mod_eq_of_lt, hd, ho]
  | j imm20 imm10_1 imm11 imm19_12 rd opcode =>
    obtain ⟨h20, h10, h11, h19, hd, ho⟩ := h
    simp only [shape, Shape.loose, BitVec.toNat_ofNat, Nat.mod_eq_of_lt, h20, h10, h11, h19, hd, ho]

/-- The sum over a shape in range is the word of a shape, and so does not wrap. -/
theorem number_eq {n : LooseShape} (h : n.InRange) : n.number = n.shape.word.toNat := by
  rw [← Shape.number_loose, loose_shape h]

theorem word_eq {n : LooseShape} (h : n.InRange) : n.word = n.shape.word := by
  rw [word, number_eq h, BitVec.ofNat_toNat, BitVec.setWidth_eq]

/-- The fields of any word in a format, as numbers. -/
def read (w : Word) (f : Format) : Option LooseShape := (Shape.read w f).toOption.map Shape.loose

/-- The shapes in range that a format has. -/
def inFormat (f : Format) : Set LooseShape := {n | n.format = f ∧ n.InRange}

theorem read_eq_of_shape {f : Format} {w : Word} {t : Shape} (h : Shape.read w f = .ok t) :
    read w f = some t.loose := by
  rw [read, h]
  rfl

/-- Reading undoes laying out. -/
theorem read_word {n : LooseShape} (h : n.InRange) : read n.word n.format = some n := by
  have hread : Shape.read n.word n.format = .ok n.shape := by
    rw [word_eq h, ← format_shape]
    exact n.shape.read_word
  rw [read_eq_of_shape hread, loose_shape h]

/-- Laying out undoes reading. -/
theorem exists_read {f : Format} (hf : f ≠ .compressed) (w : Word) :
    ∃ n ∈ inFormat f, read w f = some n ∧ n.number = w.toNat := by
  obtain ⟨t, ht⟩ : ∃ t, Shape.read w f = .ok t := by
    cases f with
    | compressed => exact absurd rfl hf
    | r | i | s | b | u | j => exact ⟨_, rfl⟩
  refine ⟨t.loose, ⟨?_, t.inRange_loose⟩, read_eq_of_shape ht, ?_⟩
  · rw [t.format_loose, Shape.format_of_read ht]
  · rw [t.number_loose, Shape.word_of_read ht]

theorem bijOn_read {f : Format} (hf : f ≠ .compressed) :
    Set.BijOn (read · f) Set.univ (some '' inFormat f) := by
  refine ⟨?_, ?_, ?_⟩
  · intro w _
    obtain ⟨n, hn, hw, -⟩ := exists_read hf w
    exact ⟨n, hn, hw.symm⟩
  · intro w _ w' _ heq
    obtain ⟨n, -, hn, hw⟩ := exists_read hf w
    obtain ⟨n', -, hn', hw'⟩ := exists_read hf w'
    have hsame : n = n' := Option.some.inj (hn.symm.trans (heq.trans hn'))
    apply BitVec.eq_of_toNat_eq
    rw [← hw, ← hw', hsame]
  · rintro _ ⟨n, ⟨rfl, hn⟩, rfl⟩
    exact ⟨n.word, trivial, read_word hn⟩

/-! The immediates of the formats that keep them in fragments. -/

/-- The values of the immediates of all words read in a format. -/
def immediates (f : Format) : Set Int :=
  {z | ∃ w t, Shape.read w f = .ok t ∧ t.imm?.map BitVec.toInt = some z}

/-- The immediate of a shape is the one read from the word of the shape. -/
theorem toInt_mem_immediates (t : Shape) {x : Word} (h : t.imm? = some x) :
    x.toInt ∈ immediates t.format :=
  ⟨t.word, t, t.read_word, congrArg (Option.map BitVec.toInt) h⟩

theorem immediates_s : immediates .s = {z | -2048 ≤ z ∧ z ≤ 2047} := by
  ext z
  constructor
  · rintro ⟨w, t, ht, hz⟩
    cases ht
    cases hz
    have hfits := fitsSigned_toInt (SFields.ofWord w).imm
    rw [← Imm.toInt_short] at hfits
    exact ⟨hfits.1, Int.lt_add_one_iff.mp hfits.2⟩
  · rintro ⟨hlow, hhigh⟩
    let imm := BitVec.ofInt 12 z
    let f : SFields := ⟨imm.extractLsb' 5 7, 0, 0, 0, imm.extractLsb' 0 5, 0⟩
    have hf : f.imm = imm := by
      simp only [f, SFields.imm, BitVec.extractLsb'_append_extractLsb'_eq_extractLsb']
      simp
    have hz : (Imm.short f.imm).toInt = z := by
      rw [hf, Imm.toInt_short]
      exact toInt_ofInt_of_fits (by omega) ⟨hlow, Int.lt_add_one_iff.mpr hhigh⟩
    rw [← hz]
    exact toInt_mem_immediates (.s f) rfl

/-- The numbers that an offset can be if all its bits but the lowest are stored. -/
theorem exists_half_iff {n : Nat} {z : Int} :
    (∃ half : BitVec n, (half ++ 0#1).toInt = z) ↔ FitsSigned (n + 1) z ∧ 2 ∣ z := by
  constructor
  · rintro ⟨half, rfl⟩
    exact ⟨fitsSigned_toInt _, two_dvd_toInt_append half⟩
  · rintro ⟨hfits, heven⟩
    refine ⟨(BitVec.ofInt (n + 1) z).extractLsb' 1 n, ?_⟩
    rw [append_half heven]
    exact toInt_ofInt_of_fits (by omega) hfits

theorem mem_immediates_b_iff {z : Int} :
    z ∈ immediates .b ↔ ∃ half : BitVec 12, (half ++ 0#1).toInt = z := by
  constructor
  · rintro ⟨w, t, ht, hz⟩
    cases ht
    cases hz
    exact ⟨_, (Imm.toInt_branch _).symm⟩
  · rintro ⟨half, rfl⟩
    let f : BFields := ⟨half.extractLsb' 11 1, half.extractLsb' 4 6, 0, 0, 0, half.extractLsb' 0 4,
      half.extractLsb' 10 1, 0⟩
    have hf : f.half = half := BFields.append_fragments half
    rw [← Imm.toInt_branch, ← hf]
    exact toInt_mem_immediates (.b f) rfl

theorem mem_immediates_j_iff {z : Int} :
    z ∈ immediates .j ↔ ∃ half : BitVec 20, (half ++ 0#1).toInt = z := by
  constructor
  · rintro ⟨w, t, ht, hz⟩
    cases ht
    cases hz
    exact ⟨_, (Imm.toInt_jump _).symm⟩
  · rintro ⟨half, rfl⟩
    let f : JFields := ⟨half.extractLsb' 19 1, half.extractLsb' 0 10, half.extractLsb' 10 1,
      half.extractLsb' 11 8, 0, 0⟩
    have hf : f.half = half := JFields.append_fragments half
    rw [← Imm.toInt_jump, ← hf]
    exact toInt_mem_immediates (.j f) rfl

theorem immediates_b : immediates .b = {z | 2 ∣ z ∧ -4096 ≤ z ∧ z ≤ 4094} := by
  ext z
  rw [mem_immediates_b_iff, exists_half_iff, FitsSigned, Set.mem_ofPred_eq]
  omega

theorem immediates_j : immediates .j = {z | 2 ∣ z ∧ -2 ^ 20 ≤ z ∧ z ≤ 2 ^ 20 - 2} := by
  ext z
  rw [mem_immediates_j_iff, exists_half_iff, FitsSigned, Set.mem_ofPred_eq]
  omega

/-- In each of the six formats a word is the sum of the fields read from it, each at its place, and
the fields of a shape in range are read from their sum. So words and shapes in range correspond to
each other one to one, and offsets take all values that their fragments leave room for. -/
theorem formats_lossless :
    (∀ f ≠ Format.compressed, ∀ w : Word,
      ∃ n ∈ inFormat f, read w f = some n ∧ n.number = w.toNat) ∧
    (∀ n : LooseShape, n.InRange → n.number < 2 ^ 32 ∧ read n.word n.format = some n) ∧
    (∀ f ≠ Format.compressed, Set.BijOn (read · f) Set.univ (some '' inFormat f)) ∧
    immediates .s = {z | -2048 ≤ z ∧ z ≤ 2047} ∧
    immediates .b = {z | 2 ∣ z ∧ -4096 ≤ z ∧ z ≤ 4094} ∧
    immediates .j = {z | 2 ∣ z ∧ -2 ^ 20 ≤ z ∧ z ≤ 2 ^ 20 - 2} := by
  refine ⟨fun _ hf w => exists_read hf w, fun n hn => ⟨?_, read_word hn⟩,
    fun _ hf => bijOn_read hf, immediates_s, immediates_b, immediates_j⟩
  rw [number_eq hn]
  exact n.shape.word.isLt

/-- A branch with an opcode that no instruction has, and with fragments that are neither all zeros
nor all ones. -/
theorem formats_lossless_unassigned :
    let n : LooseShape := .b 1 0x2A 31 0 5 9 1 0x7F
    n.InRange ∧ Format.b ≠ .compressed ∧ Opcode.ofCode? 0x7F = none ∧ n.word = 0xD5F059FF ∧
      read n.word .b = some n ∧ n.number = n.word.toNat := by
  intro n
  have hn : n.InRange := by
    refine ⟨?_, ?_, ?_, ?_, ?_, ?_, ?_, ?_⟩ <;> omega
  have hb : Format.b ≠ .compressed := by decide
  obtain ⟨-, hread⟩ := formats_lossless.2.1 n hn
  obtain ⟨m, -, hm, hsum⟩ := formats_lossless.1 .b hb n.word
  have hsame : m = n := Option.some.inj (hm.symm.trans hread)
  rw [hsame] at hsum
  exact ⟨hn, hb, rfl, rfl, hread, hsum⟩

end LooseShape

end RiscHart
