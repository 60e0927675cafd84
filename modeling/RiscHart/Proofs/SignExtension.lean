import Mathlib.Data.Int.ModEq
import RiscHart.Proofs.Extraction

/-!
# Sign extension

The low bits of a word stand for the one integer that is congruent to the word and that so many
bits can hold in two's complement. It is found by two shifts: one to the left, which brings the
sign bit to the top and drops the bits above it, and an arithmetic one by as many places back. As
it is the only such integer, an extension that is extended again from more bits stays as it is. The
immediates of all formats are made in this way.
-/

namespace RiscHart

/-- Sign extension by a pair of shifts, with every operation checked. -/
def checkedExtend (width raw : Word) : Option Word := do
  let unused ← checkedSub 32 width
  let top ← checkedShift (· <<< ·) raw unused
  checkedShift BitVec.sshiftRight top unused

theorem FitsSigned.mono {m n : Nat} (h : m ≤ n) {v : Int} (hv : FitsSigned m v) :
    FitsSigned n v := by
  have hpow : (2 : Int) ^ (m - 1) ≤ 2 ^ (n - 1) := by
    exact_mod_cast Nat.pow_le_pow_right (by omega) (Nat.sub_le_sub_right h 1)
  obtain ⟨hlow, hhigh⟩ := hv
  exact ⟨by omega, by omega⟩

/-- A number of bits can hold only one of the integers that are congruent to each other. -/
theorem FitsSigned.eq_of_modEq {n : Nat} (hpos : 0 < n) {u v : Int} (hu : FitsSigned n u)
    (hv : FitsSigned n v) (h : u ≡ v [ZMOD 2 ^ n]) : u = v := by
  have hpow : (2 : Int) ^ n = 2 * 2 ^ (n - 1) := by rw [← pow_succ', Nat.sub_add_cancel hpos]
  have hnear : |u - v| < 2 ^ n := by
    obtain ⟨hulow, huhigh⟩ := hu
    obtain ⟨hvlow, hvhigh⟩ := hv
    rw [abs_lt]
    omega
  exact Int.sub_eq_zero.mp (Int.eq_zero_of_abs_lt_dvd (Int.modEq_iff_dvd.mp h.symm) hnear)

theorem mod_two_pow_modEq (a n : Nat) : (a % 2 ^ n : Nat) ≡ a [ZMOD 2 ^ n] := by
  rw [Int.natCast_mod, Int.natCast_pow]
  exact Int.mod_modEq _ _

theorem toInt_modEq {n : Nat} (x : BitVec n) : x.toInt ≡ x.toNat [ZMOD 2 ^ n] := by
  rw [BitVec.toInt_eq_toNat_bmod]
  exact_mod_cast Int.bmod_emod

theorem toInt_shiftLeft_modEq (x : Word) (n : Nat) :
    (x <<< n).toInt ≡ x.toNat * 2 ^ n [ZMOD 2 ^ 32] := by
  calc
    (x <<< n).toInt ≡ (x <<< n).toNat [ZMOD 2 ^ 32] := toInt_modEq _
    _ ≡ (x.toNat * 2 ^ n : Nat) [ZMOD 2 ^ 32] := by
      rw [BitVec.toNat_shiftLeft, Nat.shiftLeft_eq]
      exact mod_two_pow_modEq _ 32
    _ = x.toNat * 2 ^ n := by push_cast; rfl

section

variable {width : Nat}

theorem toInt_signExtend (hle : width ≤ 32) (raw : Word) :
    (signExtend width raw).toInt = (raw.setWidth width).toInt :=
  BitVec.toInt_signExtend_of_le hle

theorem toInt_signExtend_modEq (hle : width ≤ 32) (raw : Word) :
    (signExtend width raw).toInt ≡ raw.toNat [ZMOD 2 ^ width] := by
  rw [toInt_signExtend hle]
  calc
    (raw.setWidth width).toInt ≡ (raw.setWidth width).toNat [ZMOD 2 ^ width] := toInt_modEq _
    _ ≡ raw.toNat [ZMOD 2 ^ width] := by
      rw [BitVec.toNat_setWidth]
      exact mod_two_pow_modEq _ width

/-- Sign extension gives the one integer that the width can hold and that has the low bits. -/
theorem eq_toInt_signExtend_iff (hpos : 0 < width) (hle : width ≤ 32) (raw : Word) {v : Int} :
    v = (signExtend width raw).toInt ↔ FitsSigned width v ∧ v ≡ raw.toNat [ZMOD 2 ^ width] := by
  have hfits : FitsSigned width (signExtend width raw).toInt := by
    rw [toInt_signExtend hle]
    exact fitsSigned_toInt _
  have hcongr := toInt_signExtend_modEq hle raw
  constructor
  · rintro rfl
    exact ⟨hfits, hcongr⟩
  · rintro ⟨hv, h⟩
    exact hv.eq_of_modEq hpos hfits (h.trans hcongr.symm)

/-- The two shifts find the integer. The one back is a division without remainder, because the
shifted word is a multiple of the divisor, and it scales the range of words down to that of the
width. -/
theorem shifts_eq_signExtend {gap : Nat} (hpos : 0 < width) (hsum : width + gap = 32)
    (raw : Word) : (raw <<< gap).sshiftRight gap = signExtend width raw := by
  have hword : (2 : Int) ^ 32 = 2 ^ width * 2 ^ gap := by rw [← pow_add, hsum]
  have hhalf : (2 : Int) ^ (32 - 1) = 2 ^ (width - 1) * 2 ^ gap := by
    rw [← pow_add, ← hsum, Nat.sub_add_comm hpos]
  have hunit : (0 : Int) < 2 ^ gap := Int.pow_pos (by omega)
  obtain ⟨k, hk⟩ := Int.modEq_iff_add_fac.mp (toInt_shiftLeft_modEq raw gap).symm
  have hmul : (raw <<< gap).toInt = (raw.toNat + 2 ^ width * k) * 2 ^ gap := by
    rw [hk, hword, Int.add_mul, Int.mul_right_comm]
  have hback : ((raw <<< gap).sshiftRight gap).toInt = raw.toNat + 2 ^ width * k := by
    rw [BitVec.toInt_sshiftRight, Int.shiftRight_eq_div_pow, Int.natCast_pow, Nat.cast_ofNat, hmul,
      Int.mul_ediv_cancel _ hunit.ne']
  have hfits : FitsSigned width (raw.toNat + 2 ^ width * k) := by
    obtain ⟨hlow, hhigh⟩ := fitsSigned_toInt (raw <<< gap)
    rw [hmul, hhalf] at hlow hhigh
    rw [← Int.neg_mul] at hlow
    exact ⟨Int.le_of_mul_le_mul_right hlow hunit, Int.lt_of_mul_lt_mul_right hhigh hunit.le⟩
  apply BitVec.eq_of_toInt_eq
  rw [eq_toInt_signExtend_iff hpos (by omega), hback]
  exact ⟨hfits, (Int.modEq_iff_add_fac.mpr ⟨k, rfl⟩).symm⟩

theorem checkedExtend_ofNat (hpos : 0 < width) (hle : width ≤ 32) (raw : Word) :
    checkedExtend (.ofNat 32 width) raw = some (signExtend width raw) := by
  have hunused : checkedSub 32 (.ofNat 32 width) = some (.ofNat 32 (32 - width)) :=
    checkedSub_ofNat (show 32 < 2 ^ 32 by omega) hle
  have hgap : 32 - width < 32 := by omega
  rw [checkedExtend, hunused, Option.bind_eq_bind, Option.bind_some, checkedShift_ofNat _ _ hgap,
    Option.bind_some, checkedShift_ofNat _ _ hgap]
  exact congrArg some (shifts_eq_signExtend hpos (Nat.add_sub_cancel' hle) raw)

end

/-- An integer of fewer bits is extended already. -/
theorem signExtend_signExtend {narrow width : Nat} (hpos : 0 < narrow) (h : narrow ≤ width)
    (hle : width ≤ 32) (raw : Word) :
    signExtend width (signExtend narrow raw) = signExtend narrow raw := by
  obtain ⟨hfits, -⟩ := (eq_toInt_signExtend_iff hpos (h.trans hle) raw).mp rfl
  have hcongr := (toInt_modEq (signExtend narrow raw)).of_dvd (pow_dvd_pow 2 hle)
  apply BitVec.eq_of_toInt_eq
  symm
  rw [eq_toInt_signExtend_iff (by omega) hle]
  exact ⟨hfits.mono h, hcongr⟩

/-- Bits above the width have no part in the extension. -/
theorem signExtend_congr {width : Nat} {raw raw' : Word}
    (h : ∀ i < width, raw'.getLsbD i = raw.getLsbD i) :
    signExtend width raw' = signExtend width raw := by
  have hlow : raw'.setWidth width = raw.setWidth width := by
    apply BitVec.eq_of_getLsbD_eq
    intro i hi
    rw [BitVec.getLsbD_setWidth, BitVec.getLsbD_setWidth, h i hi]
  rw [signExtend, signExtend, hlow]

namespace Imm

/-! An assembler masks its fragments, moves each to its place and extends what they make up. -/

theorem assembleS_eq_signExtend (h l : Word) :
    assembleS h l = signExtend shortBits (place h 7 5 ||| place l 5 0) := by
  have hlow : (place h 7 5 ||| place l 5 0).setWidth 12 = h.setWidth 7 ++ l.setWidth 5 := by
    apply BitVec.eq_of_getLsbD_eq
    intro i hi
    simp only [BitVec.getLsbD_setWidth, BitVec.getLsbD_or, getLsbD_place, BitVec.getLsbD_append]
    grind
  rw [assembleS, short, signExtend, shortBits, hlow]

theorem assembleB_eq_signExtend (a b c d : Word) :
    assembleB a b c d =
      signExtend branchBits (place a 1 12 ||| place b 1 11 ||| place c 6 5 ||| place d 4 1) := by
  have hlow : (place a 1 12 ||| place b 1 11 ||| place c 6 5 ||| place d 4 1).setWidth 13 =
      a.setWidth 1 ++ b.setWidth 1 ++ c.setWidth 6 ++ d.setWidth 4 ++ 0#1 := by
    apply BitVec.eq_of_getLsbD_eq
    intro i hi
    simp only [BitVec.getLsbD_setWidth, BitVec.getLsbD_or, getLsbD_place, BitVec.getLsbD_append,
      BitVec.getLsbD_zero]
    grind
  rw [assembleB, branch, signExtend, branchBits, hlow]

theorem assembleJ_eq_signExtend (a b c d : Word) :
    assembleJ a b c d =
      signExtend jumpBits (place a 1 20 ||| place b 8 12 ||| place c 1 11 ||| place d 10 1) := by
  have hlow : (place a 1 20 ||| place b 8 12 ||| place c 1 11 ||| place d 10 1).setWidth 21 =
      a.setWidth 1 ++ b.setWidth 8 ++ c.setWidth 1 ++ d.setWidth 10 ++ 0#1 := by
    apply BitVec.eq_of_getLsbD_eq
    intro i hi
    simp only [BitVec.getLsbD_setWidth, BitVec.getLsbD_or, getLsbD_place, BitVec.getLsbD_append,
      BitVec.getLsbD_zero]
    grind
  rw [assembleJ, jump, signExtend, jumpBits, hlow]

theorem assembleU_eq_signExtend (u : Word) :
    assembleU u = signExtend upperBits u <<< upperShift := by
  apply BitVec.eq_of_getLsbD_eq
  intro i hi
  unfold assembleU upper signExtend
  change BitVec.getLsbD (w := 20 + 12) _ _ = _
  simp only [upperBits, upperShift, BitVec.getLsbD_append, BitVec.getLsbD_zero,
    BitVec.getLsbD_shiftLeft, BitVec.getLsbD_signExtend, BitVec.getLsbD_setWidth]
  grind

end Imm

/-- At every width of a word the two shifts of sign extension are in range and give the one integer
that is congruent to the word and that the width can hold. So the bits above the width have no part
in it, and extending it again from more bits leaves it as it is. -/
theorem signExtend_representative {width : Nat} (hpos : 1 ≤ width) (hle : width ≤ 32)
    (raw : Word) :
    checkedExtend (.ofNat 32 width) raw = some (signExtend width raw) ∧
    (∀ v : Int, v = (signExtend width raw).toInt ↔
      FitsSigned width v ∧ v ≡ raw.toNat [ZMOD 2 ^ width]) ∧
    (∀ raw' : Word, (∀ i < width, raw'.getLsbD i = raw.getLsbD i) →
      signExtend width raw' = signExtend width raw) ∧
    ∀ narrow : Nat, 1 ≤ narrow → narrow ≤ width →
      signExtend width (signExtend narrow raw) = signExtend narrow raw :=
  ⟨checkedExtend_ofNat hpos hle raw, fun _ => eq_toInt_signExtend_iff hpos hle raw,
    fun _ => signExtend_congr, fun _ hnarrow h => signExtend_signExtend hnarrow h hle raw⟩

/-- The longest and the shortest shift: one bit that is set, under bits that do not count, and its
extension extended again as a whole word. -/
theorem signExtend_representative_ends :
    let raw : Word := 0x2000FFF1
    1 ≤ 1 ∧ 1 ≤ 32 ∧ 32 ≤ 32 ∧ (∀ i < 1, (0xFFFFFFFF#32).getLsbD i = raw.getLsbD i) ∧
      checkedExtend 1 raw = some 0xFFFFFFFF ∧ (signExtend 1 raw).toInt = -1 ∧
      signExtend 1 0xFFFFFFFF = signExtend 1 raw ∧
      checkedExtend 32 raw = some raw ∧ signExtend 32 (signExtend 1 raw) = signExtend 1 raw := by
  intro raw
  have hlow : ∀ i < 1, (0xFFFFFFFF#32).getLsbD i = raw.getLsbD i := by decide
  have hset : signExtend 1 raw = 0xFFFFFFFF := by decide
  have hwhole : signExtend 32 raw = raw := by decide
  obtain ⟨hone, hvalue, hcongr, -⟩ := signExtend_representative le_rfl (show 1 ≤ 32 by omega) raw
  obtain ⟨hall, -, -, hagain⟩ := signExtend_representative (show 1 ≤ 32 by omega) le_rfl raw
  refine ⟨le_rfl, by omega, le_rfl, hlow, hone.trans (congrArg some hset), ?_, hcongr _ hlow,
    hall.trans (congrArg some hwhole), hagain 1 le_rfl (by omega)⟩
  exact ((hvalue (-1)).mpr ⟨by decide, by decide⟩).symm

end RiscHart
