/-!
# Words, bit fields and sign extension

A machine word has 32 bits and a byte has eight; arithmetic on both wraps. A `Field` names an
inclusive range of bit positions. `Field.extract` reads it right-justified into a word, and
`Field.get` reads it at its exact width, which is how every instruction format takes a word apart.
`signExtend` reads the low bits of a word as a two's-complement number.
-/

namespace RiscHart

/-- A machine word; arithmetic wraps modulo `2 ^ 32`. -/
abbrev Word := BitVec 32

abbrev Byte := BitVec 8

/-- The word whose lowest `n` bits are set; all of them from `n = 32` on. -/
def lowMask (n : Nat) : Word := (BitVec.allOnes n).setWidth 32

/-- Bits `low` to `high` of `w`, both included, moved down to bit 0. -/
def bits (w : Word) (low high : Nat) : Word := (w >>> low) &&& lowMask (high - low + 1)

theorem getLsbD_lowMask (n i : Nat) :
    (lowMask n).getLsbD i = (decide (i < 32) && decide (i < n)) := by
  simp [lowMask, BitVec.getLsbD_setWidth, BitVec.getLsbD_allOnes]

theorem getLsbD_bits (w : Word) (low high i : Nat) :
    (bits w low high).getLsbD i = (decide (i < high - low + 1) && w.getLsbD (low + i)) := by
  simp only [bits, BitVec.getLsbD_and, BitVec.getLsbD_ushiftRight, getLsbD_lowMask]
  by_cases h : i < 32
  · simp [h, Bool.and_comm]
  · simp [h, BitVec.getLsbD_of_ge w (low + i) (by omega)]

/-- The two's-complement number in the lowest `width` bits of `raw`; the bits above are ignored. -/
def signExtend (width : Nat) (raw : Word) : Word := (raw.setWidth width).signExtend 32

/-- The bit positions `low` to `high` of a word, both included. -/
structure Field where
  low : Nat
  high : Nat
  deriving DecidableEq

namespace Field

abbrev width (f : Field) : Nat := f.high - f.low + 1

def extract (f : Field) (w : Word) : Word := bits w f.low f.high

/-- The field at its exact width. Nothing is cut off, since `extract` clears every higher bit. -/
def get (f : Field) (w : Word) : BitVec f.width := (f.extract w).setWidth f.width

theorem get_eq_extractLsb' (f : Field) (w : Word) : f.get w = w.extractLsb' f.low f.width := by
  apply BitVec.eq_of_getLsbD_eq
  intro i hi
  simp only [get, extract, BitVec.getLsbD_setWidth, getLsbD_bits, BitVec.getLsbD_extractLsb']
  simp [hi]

abbrev opcode : Field := ⟨0, 6⟩

abbrev rd : Field := ⟨7, 11⟩

abbrev funct3 : Field := ⟨12, 14⟩

abbrev rs1 : Field := ⟨15, 19⟩

abbrev rs2 : Field := ⟨20, 24⟩

abbrev funct7 : Field := ⟨25, 31⟩

/-- The whole immediate of the I format. -/
abbrev immI : Field := ⟨20, 31⟩

abbrev immS4_0 : Field := ⟨7, 11⟩

abbrev immS11_5 : Field := ⟨25, 31⟩

abbrev immB11 : Field := ⟨7, 7⟩

abbrev immB4_1 : Field := ⟨8, 11⟩

abbrev immB10_5 : Field := ⟨25, 30⟩

abbrev immB12 : Field := ⟨31, 31⟩

/-- The upper immediate of the U format, before it is moved into place. -/
abbrev immU : Field := ⟨12, 31⟩

abbrev immJ19_12 : Field := ⟨12, 19⟩

abbrev immJ11 : Field := ⟨20, 20⟩

abbrev immJ10_1 : Field := ⟨21, 30⟩

abbrev immJ20 : Field := ⟨31, 31⟩

/-! The fields by position and width. -/

@[simp] theorem get_opcode (w : Word) : opcode.get w = w.extractLsb' 0 7 :=
  get_eq_extractLsb' _ w

@[simp] theorem get_rd (w : Word) : rd.get w = w.extractLsb' 7 5 :=
  get_eq_extractLsb' _ w

@[simp] theorem get_funct3 (w : Word) : funct3.get w = w.extractLsb' 12 3 :=
  get_eq_extractLsb' _ w

@[simp] theorem get_rs1 (w : Word) : rs1.get w = w.extractLsb' 15 5 :=
  get_eq_extractLsb' _ w

@[simp] theorem get_rs2 (w : Word) : rs2.get w = w.extractLsb' 20 5 :=
  get_eq_extractLsb' _ w

@[simp] theorem get_funct7 (w : Word) : funct7.get w = w.extractLsb' 25 7 :=
  get_eq_extractLsb' _ w

@[simp] theorem get_immI (w : Word) : immI.get w = w.extractLsb' 20 12 :=
  get_eq_extractLsb' _ w

@[simp] theorem get_immS4_0 (w : Word) : immS4_0.get w = w.extractLsb' 7 5 :=
  get_eq_extractLsb' _ w

@[simp] theorem get_immS11_5 (w : Word) : immS11_5.get w = w.extractLsb' 25 7 :=
  get_eq_extractLsb' _ w

@[simp] theorem get_immB11 (w : Word) : immB11.get w = w.extractLsb' 7 1 :=
  get_eq_extractLsb' _ w

@[simp] theorem get_immB4_1 (w : Word) : immB4_1.get w = w.extractLsb' 8 4 :=
  get_eq_extractLsb' _ w

@[simp] theorem get_immB10_5 (w : Word) : immB10_5.get w = w.extractLsb' 25 6 :=
  get_eq_extractLsb' _ w

@[simp] theorem get_immB12 (w : Word) : immB12.get w = w.extractLsb' 31 1 :=
  get_eq_extractLsb' _ w

@[simp] theorem get_immU (w : Word) : immU.get w = w.extractLsb' 12 20 :=
  get_eq_extractLsb' _ w

@[simp] theorem get_immJ19_12 (w : Word) : immJ19_12.get w = w.extractLsb' 12 8 :=
  get_eq_extractLsb' _ w

@[simp] theorem get_immJ11 (w : Word) : immJ11.get w = w.extractLsb' 20 1 :=
  get_eq_extractLsb' _ w

@[simp] theorem get_immJ10_1 (w : Word) : immJ10_1.get w = w.extractLsb' 21 10 :=
  get_eq_extractLsb' _ w

@[simp] theorem get_immJ20 (w : Word) : immJ20.get w = w.extractLsb' 31 1 :=
  get_eq_extractLsb' _ w

end Field

end RiscHart
