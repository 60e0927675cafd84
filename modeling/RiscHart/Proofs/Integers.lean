import Mathlib.Algebra.Group.Int.Defs
import Mathlib.Algebra.Group.Nat.Defs
import RiscHart.Isa.Immediate
import RiscHart.Isa.Operation

/-!
# Words as integers

Machine arithmetic in terms of plain numbers. `wrap` is what a word keeps of an integer, `signed`
the two's-complement reading of a number, and `bitField` a range of bits, by quotient and
remainder. The operations on words are these operations on their values, so that a statement about
words can be made, and read, without bit vectors.
-/

namespace RiscHart

/-- The value a word keeps of an integer. -/
def wrap (z : Int) : Nat := (z % 2 ^ 32).toNat

/-- The two's-complement reading of a number of `width` bits. -/
def signed (width n : Nat) : Int := if n < 2 ^ (width - 1) then n else n - 2 ^ width

/-- Bits `low` to `high` of a number, both included. -/
def bitField (n low high : Nat) : Nat := n / 2 ^ low % 2 ^ (high + 1 - low)

theorem toNat_ofNat_of_lt {m n : Nat} (hn : n < 2 ^ m) : (BitVec.ofNat m n).toNat = n :=
  (BitVec.toNat_ofNat n m).trans (Nat.mod_eq_of_lt hn)

theorem wrap_eq_toNat (z : Int) : wrap z = (BitVec.ofInt 32 z).toNat := by
  rw [BitVec.toNat_ofInt]
  rfl

theorem wrap_lt (z : Int) : wrap z < 2 ^ 32 := by
  rw [wrap_eq_toNat]
  exact BitVec.isLt _

theorem wrap_toInt (x : Word) : wrap x.toInt = x.toNat := by
  rw [wrap_eq_toNat, BitVec.ofInt_toInt]

theorem wrap_toNat (x : Word) : wrap x.toNat = x.toNat := by
  have hx := x.isLt
  unfold wrap
  omega

theorem ofInt_toNat (x : Word) : BitVec.ofInt 32 x.toNat = x := by
  apply BitVec.eq_of_toNat_eq
  rw [← wrap_eq_toNat, wrap_toNat]

theorem wrap_add_toInt (a b : Word) : wrap (a.toNat + b.toInt) = (a + b).toNat := by
  rw [wrap_eq_toNat, BitVec.ofInt_add, ofInt_toNat, BitVec.ofInt_toInt]

theorem wrap_add_toNat (a b : Word) : wrap (a.toNat + b.toNat) = (a + b).toNat := by
  rw [wrap_eq_toNat, BitVec.ofInt_add, ofInt_toNat, ofInt_toNat]

theorem wrap_sub_toNat (a b : Word) : wrap (a.toNat - b.toNat) = (a - b).toNat := by
  rw [BitVec.toNat_sub]
  have ha := a.isLt
  have hb := b.isLt
  unfold wrap
  omega

theorem signed_toNat {n : Nat} (hn : 0 < n) (x : BitVec n) : signed n x.toNat = x.toInt := by
  obtain ⟨k, rfl⟩ : ∃ k, n = k + 1 := ⟨n - 1, by omega⟩
  have hpow : 2 ^ (k + 1) = 2 * 2 ^ k := Nat.pow_succ'
  rw [signed, BitVec.toInt_eq_toNat_cond, Nat.add_sub_cancel]
  by_cases h : x.toNat < 2 ^ k
  · rw [if_pos h, if_pos (by omega)]
  · rw [if_neg h, if_neg (by omega)]
    norm_cast

theorem bitField_toNat {n : Nat} (w : BitVec n) (low high : Nat) :
    bitField w.toNat low high = (w.extractLsb' low (high + 1 - low)).toNat := by
  rw [BitVec.extractLsb'_toNat, Nat.shiftRight_eq_div_pow]
  rfl

theorem toNat_append {m n : Nat} (x : BitVec m) (y : BitVec n) :
    (x ++ y).toNat = x.toNat * 2 ^ n + y.toNat := by
  rw [BitVec.toNat_append, ← Nat.shiftLeft_add_eq_or_of_lt y.isLt, Nat.shiftLeft_eq]

theorem wrap_signed {n : Nat} (hpos : 0 < n) (hn : n ≤ 32) (v : BitVec n) :
    wrap (signed n v.toNat) = (v.signExtend 32).toNat := by
  rw [signed_toNat hpos, ← BitVec.toInt_signExtend_of_le hn, wrap_toInt]

/-- The numbers that are read from memory are extended as signed or unsigned ones. -/
theorem LoadOp.toNat_extend (f : LoadOp) (v : BitVec f.width.bits) :
    (f.extend v).toNat =
      if f.signed then wrap (RiscHart.signed f.width.bits v.toNat) else v.toNat := by
  have hpos : 0 < f.width.bits := by cases f <;> decide
  have hle : f.width.bits ≤ 32 := by cases f <;> decide
  rw [extend]
  by_cases hs : f.signed = true
  · rw [if_pos hs, if_pos hs, wrap_signed hpos hle]
  · rw [if_neg hs, if_neg hs, BitVec.toNat_setWidth_of_le hle]

theorem toNat_clear_bit_zero (x : Word) : (x &&& ~~~(1 : Word)).toNat = x.toNat / 2 * 2 := by
  have hshift : x &&& ~~~(1 : Word) = (x >>> 1) <<< 1 := by
    apply BitVec.eq_of_getLsbD_eq
    intro i hi
    rw [BitVec.getLsbD_and, BitVec.getLsbD_not, BitVec.getLsbD_shiftLeft,
      BitVec.getLsbD_ushiftRight]
    cases i with
    | zero => simp
    | succ i => simp [hi, Nat.add_comm]
  have hx := x.isLt
  rw [hshift, BitVec.toNat_shiftLeft, BitVec.toNat_ushiftRight, Nat.shiftRight_eq_div_pow,
    Nat.shiftLeft_eq]
  omega

namespace Imm

theorem toInt_short (imm : BitVec 12) : (short imm).toInt = imm.toInt :=
  BitVec.toInt_signExtend_of_le (by omega)

theorem toInt_branch (half : BitVec 12) : (branch half).toInt = (half ++ 0#1).toInt :=
  BitVec.toInt_signExtend_of_le (by omega)

theorem toInt_jump (half : BitVec 20) : (jump half).toInt = (half ++ 0#1).toInt :=
  BitVec.toInt_signExtend_of_le (by omega)

theorem toNat_short (imm : BitVec 12) : (short imm).toNat = wrap imm.toInt := by
  rw [← toInt_short, wrap_toInt]

/-- The address that a base and an offset add up to. -/
theorem wrap_add_short (base : Word) (offset : BitVec 12) :
    wrap (base.toNat + offset.toInt) = (base + short offset).toNat := by
  rw [← toInt_short, wrap_add_toInt]

theorem toNat_upper (imm : BitVec 20) : (upper imm).toNat = imm.toNat * 2 ^ 12 := by
  have hzero : (0#12).toNat = 0 := rfl
  rw [upper, toNat_append, hzero, Nat.add_zero]

end Imm

end RiscHart
