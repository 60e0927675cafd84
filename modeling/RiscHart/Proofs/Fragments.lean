import Mathlib.Data.Set.Function
import RiscHart.Proofs.AssemblyLines

/-!
# Immediates and their fragments

An assembler takes the fragments of an immediate as whole words. It looks at as many low bits of
each as the fragment is wide, and what it makes of them is the signed number in which every
fragment has a place value of its own. Fragments that fit and immediates that can be represented
correspond to each other one to one, and an immediate is cut into its fragments by `bits`.
-/

namespace RiscHart

theorem toNat_bits {low high : Nat} (hlow : low ≤ high) (hhigh : high < 32) (w : Word) :
    (bits w low high).toNat = bitField w.toNat low high := by
  have hget := Field.setWidth_get ⟨low, high⟩ w
  have hwidth : high - low + 1 ≤ 32 := by omega
  rw [Field.extract] at hget
  rw [bitField_toNat, show high + 1 - low = high - low + 1 by omega, ← hget,
    BitVec.toNat_setWidth_of_le hwidth, Field.get_eq_extractLsb']

theorem toNat_bits_lt {low high : Nat} (hlow : low ≤ high) (hhigh : high < 32) (w : Word) :
    (bits w low high).toNat < 2 ^ (high + 1 - low) := by
  rw [toNat_bits hlow hhigh]
  exact Nat.mod_lt _ (Nat.two_pow_pos _)

/-- A signed reading forgets nothing. -/
theorem signed_inj {n x y : Nat} (hx : x < 2 ^ n) (hy : y < 2 ^ n)
    (h : signed n x = signed n y) : x = y := by
  have hpow : ((2 ^ n : Nat) : Int) = 2 ^ n := Int.natCast_pow 2 n
  unfold signed at h
  split at h <;> split at h <;> omega

/-- A word whose signed value fits is determined by its low bits. -/
theorem signed_mod_of_fits {n : Nat} (hpos : 0 < n) (hn : n ≤ 32) {x : Word}
    (hx : FitsSigned n x.toInt) : signed n (x.toNat % 2 ^ n) = x.toInt := by
  have hlow : x.setWidth n = BitVec.ofInt n x.toInt := by
    rw [← setWidth_ofInt hn, BitVec.ofInt_toInt]
  rw [← BitVec.toNat_setWidth, signed_toNat hpos, hlow, toInt_ofInt_of_fits hpos hx]

theorem dvd_toNat_of_dvd_toInt {d : Nat} (hd : d ∣ 2 ^ 32) {x : Word}
    (hx : (d : Int) ∣ x.toInt) : d ∣ x.toNat := by
  have hmod : (x.toNat : Int) = x.toInt % 2 ^ 32 := by
    rw [← wrap_toInt, wrap]
    exact Int.toNat_of_nonneg (Int.emod_nonneg _ (by omega))
  have hpow : (d : Int) ∣ 2 ^ 32 := by exact_mod_cast hd
  rw [← Int.natCast_dvd_natCast, hmod, Int.emod_def]
  exact Int.dvd_sub hx (Int.dvd_mul_of_dvd_left hpow)

namespace Imm

/-! The value of each assembler. -/

theorem toInt_assembleS (h l : Word) :
    (assembleS h l).toInt = signed 12 (32 * (h.toNat % 2 ^ 7) + l.toNat % 2 ^ 5) := by
  have hsum : 32 * (h.toNat % 2 ^ 7) + l.toNat % 2 ^ 5 = (h.setWidth 7 ++ l.setWidth 5).toNat := by
    simp only [toNat_append, BitVec.toNat_setWidth]
    omega
  rw [hsum, assembleS, toInt_short]
  exact (signed_toNat (by omega) _).symm

theorem toInt_assembleB (a b c d : Word) :
    (assembleB a b c d).toInt = signed 13 (4096 * (a.toNat % 2 ^ 1) + 2048 * (b.toNat % 2 ^ 1) +
      32 * (c.toNat % 2 ^ 6) + 2 * (d.toNat % 2 ^ 4)) := by
  have hsum : 4096 * (a.toNat % 2 ^ 1) + 2048 * (b.toNat % 2 ^ 1) + 32 * (c.toNat % 2 ^ 6) +
      2 * (d.toNat % 2 ^ 4) =
      (a.setWidth 1 ++ b.setWidth 1 ++ c.setWidth 6 ++ d.setWidth 4 ++ 0#1).toNat := by
    simp only [toNat_append, BitVec.toNat_setWidth, BitVec.toNat_ofNat]
    omega
  rw [hsum, assembleB, toInt_branch]
  exact (signed_toNat (by omega) _).symm

theorem toInt_assembleJ (a b c d : Word) :
    (assembleJ a b c d).toInt = signed 21 (2 ^ 20 * (a.toNat % 2 ^ 1) +
      4096 * (b.toNat % 2 ^ 8) + 2048 * (c.toNat % 2 ^ 1) + 2 * (d.toNat % 2 ^ 10)) := by
  have hsum : 2 ^ 20 * (a.toNat % 2 ^ 1) + 4096 * (b.toNat % 2 ^ 8) + 2048 * (c.toNat % 2 ^ 1) +
      2 * (d.toNat % 2 ^ 10) =
      (a.setWidth 1 ++ b.setWidth 8 ++ c.setWidth 1 ++ d.setWidth 10 ++ 0#1).toNat := by
    simp only [toNat_append, BitVec.toNat_setWidth, BitVec.toNat_ofNat]
    omega
  rw [hsum, assembleJ, toInt_jump]
  exact (signed_toNat (by omega) _).symm

theorem toInt_assembleU (u : Word) :
    (assembleU u).toInt = signed 32 (4096 * (u.toNat % 2 ^ 20)) := by
  have hsum : 4096 * (u.toNat % 2 ^ 20) = (assembleU u).toNat := by
    rw [assembleU, toNat_upper, BitVec.toNat_setWidth]
    omega
  rw [hsum]
  exact (signed_toNat (by omega) _).symm

/-! An immediate that is cut into its fragments comes back. -/

theorem assembleS_split {x : Word} (hx : FitsSigned 12 x.toInt) :
    assembleS (bits x 5 11) (bits x 0 4) = x := by
  apply BitVec.eq_of_toInt_eq
  simp (disch := omega) only [toInt_assembleS, toNat_bits]
  rw [← signed_mod_of_fits (by omega) (by omega) hx]
  unfold bitField
  congr 1
  omega

theorem assembleB_split {x : Word} (hx : FitsSigned 13 x.toInt) (heven : 2 ∣ x.toInt) :
    assembleB (bits x 12 12) (bits x 11 11) (bits x 5 10) (bits x 1 4) = x := by
  have hnat : 2 ∣ x.toNat := dvd_toNat_of_dvd_toInt (by decide) heven
  apply BitVec.eq_of_toInt_eq
  simp (disch := omega) only [toInt_assembleB, toNat_bits]
  rw [← signed_mod_of_fits (by omega) (by omega) hx]
  unfold bitField
  congr 1
  omega

theorem assembleJ_split {x : Word} (hx : FitsSigned 21 x.toInt) (heven : 2 ∣ x.toInt) :
    assembleJ (bits x 20 20) (bits x 12 19) (bits x 11 11) (bits x 1 10) = x := by
  have hnat : 2 ∣ x.toNat := dvd_toNat_of_dvd_toInt (by decide) heven
  apply BitVec.eq_of_toInt_eq
  simp (disch := omega) only [toInt_assembleJ, toNat_bits]
  rw [← signed_mod_of_fits (by omega) (by omega) hx]
  unfold bitField
  congr 1
  omega

theorem assembleU_split {x : Word} (hx : 4096 ∣ x.toInt) : assembleU (bits x 12 31) = x := by
  have hnat : 4096 ∣ x.toNat := dvd_toNat_of_dvd_toInt (by decide) hx
  have hlt := x.isLt
  apply BitVec.eq_of_toInt_eq
  simp (disch := omega) only [toInt_assembleU, toNat_bits]
  rw [← signed_mod_of_fits (by omega) (by omega) (fitsSigned_toInt x)]
  unfold bitField
  congr 1
  omega

/-! Fragments that fit, and the immediates that can be represented by them. -/

def fragmentsS : Set (Word × Word) :=
  {(h, l) : Word × Word | h.toNat < 2 ^ 7 ∧ l.toNat < 2 ^ 5}

def fragmentsB : Set (Word × Word × Word × Word) :=
  {(a, b, c, d) : Word × Word × Word × Word |
    a.toNat < 2 ^ 1 ∧ b.toNat < 2 ^ 1 ∧ c.toNat < 2 ^ 6 ∧ d.toNat < 2 ^ 4}

def fragmentsJ : Set (Word × Word × Word × Word) :=
  {(a, b, c, d) : Word × Word × Word × Word |
    a.toNat < 2 ^ 1 ∧ b.toNat < 2 ^ 8 ∧ c.toNat < 2 ^ 1 ∧ d.toNat < 2 ^ 10}

def fragmentsU : Set Word := {u | u.toNat < 2 ^ 20}

/-- The immediates of a number of bits. -/
def signedWords (n : Nat) : Set Word := {x | FitsSigned n x.toInt}

def evenWords : Set Word := {x | 2 ∣ x.toInt}

/-- The immediates that leave the lowest twelve bits zero. -/
def upperWords : Set Word := {x | 4096 ∣ x.toInt}

theorem bijOn_assembleS : Set.BijOn (fun (h, l) => assembleS h l) fragmentsS (signedWords 12) := by
  refine ⟨?_, ?_, ?_⟩
  · rintro ⟨h, l⟩ -
    have hint : (assembleS h l).toInt = _ := toInt_short _
    rw [signedWords, Set.mem_ofPred_eq, hint]
    exact fitsSigned_toInt _
  · rintro ⟨h, l⟩ ⟨hh, hl⟩ ⟨h', l'⟩ ⟨hh', hl'⟩ heq
    have hint := congrArg BitVec.toInt heq
    simp only [toInt_assembleS] at hint
    have hsum := signed_inj (by omega) (by omega) hint
    simp only [Prod.mk.injEq, ← BitVec.toNat_inj]
    omega
  · intro x hx
    have hrange : (bits x 5 11, bits x 0 4) ∈ fragmentsS :=
      ⟨toNat_bits_lt (by omega) (by omega) x, toNat_bits_lt (by omega) (by omega) x⟩
    exact ⟨_, hrange, assembleS_split hx⟩

theorem bijOn_assembleB : Set.BijOn (fun (a, b, c, d) => assembleB a b c d) fragmentsB
    (signedWords 13 ∩ evenWords) := by
  refine ⟨?_, ?_, ?_⟩
  · rintro ⟨a, b, c, d⟩ -
    have hint : (assembleB a b c d).toInt = _ := toInt_branch _
    rw [signedWords, evenWords, Set.mem_inter_iff, Set.mem_ofPred_eq, Set.mem_ofPred_eq, hint]
    exact ⟨fitsSigned_toInt _, two_dvd_toInt_append _⟩
  · rintro ⟨a, b, c, d⟩ ⟨ha, hb, hc, hd⟩ ⟨a', b', c', d'⟩ ⟨ha', hb', hc', hd'⟩ heq
    have hint := congrArg BitVec.toInt heq
    simp only [toInt_assembleB] at hint
    have hsum := signed_inj (by omega) (by omega) hint
    simp only [Prod.mk.injEq, ← BitVec.toNat_inj]
    omega
  · rintro x ⟨hx, heven⟩
    have hrange : (bits x 12 12, bits x 11 11, bits x 5 10, bits x 1 4) ∈ fragmentsB :=
      ⟨toNat_bits_lt (by omega) (by omega) x, toNat_bits_lt (by omega) (by omega) x,
        toNat_bits_lt (by omega) (by omega) x, toNat_bits_lt (by omega) (by omega) x⟩
    exact ⟨_, hrange, assembleB_split hx heven⟩

theorem bijOn_assembleJ : Set.BijOn (fun (a, b, c, d) => assembleJ a b c d) fragmentsJ
    (signedWords 21 ∩ evenWords) := by
  refine ⟨?_, ?_, ?_⟩
  · rintro ⟨a, b, c, d⟩ -
    have hint : (assembleJ a b c d).toInt = _ := toInt_jump _
    rw [signedWords, evenWords, Set.mem_inter_iff, Set.mem_ofPred_eq, Set.mem_ofPred_eq, hint]
    exact ⟨fitsSigned_toInt _, two_dvd_toInt_append _⟩
  · rintro ⟨a, b, c, d⟩ ⟨ha, hb, hc, hd⟩ ⟨a', b', c', d'⟩ ⟨ha', hb', hc', hd'⟩ heq
    have hint := congrArg BitVec.toInt heq
    simp only [toInt_assembleJ] at hint
    have hsum := signed_inj (by omega) (by omega) hint
    simp only [Prod.mk.injEq, ← BitVec.toNat_inj]
    omega
  · rintro x ⟨hx, heven⟩
    have hrange : (bits x 20 20, bits x 12 19, bits x 11 11, bits x 1 10) ∈ fragmentsJ :=
      ⟨toNat_bits_lt (by omega) (by omega) x, toNat_bits_lt (by omega) (by omega) x,
        toNat_bits_lt (by omega) (by omega) x, toNat_bits_lt (by omega) (by omega) x⟩
    exact ⟨_, hrange, assembleJ_split hx heven⟩

theorem dvd_toInt_upper (imm : BitVec 20) : 4096 ∣ (upper imm).toInt := by
  rw [← signed_toNat (by omega), toNat_upper, signed]
  split <;> omega

theorem bijOn_assembleU : Set.BijOn assembleU fragmentsU upperWords := by
  refine ⟨?_, ?_, ?_⟩
  · intro u _
    exact dvd_toInt_upper _
  · intro u hu u' hu' heq
    have hint := congrArg BitVec.toInt heq
    rw [fragmentsU, Set.mem_ofPred_eq] at hu hu'
    simp only [toInt_assembleU] at hint
    have hsum := signed_inj (by omega) (by omega) hint
    rw [← BitVec.toNat_inj]
    omega
  · intro x hx
    exact ⟨_, toNat_bits_lt (by omega) (by omega) x, assembleU_split hx⟩

/-- The value of an assembler is a positional sum, whatever its arguments are. Between the fragments
that fit and the immediates that can be represented it is one to one, and it puts together again
what `bits` cuts apart. -/
theorem assemblers_positional :
    (∀ h l : Word, (assembleS h l).toInt =
      signed 12 (32 * (h.toNat % 2 ^ 7) + l.toNat % 2 ^ 5)) ∧
    (∀ a b c d : Word, (assembleB a b c d).toInt =
      signed 13 (4096 * (a.toNat % 2 ^ 1) + 2048 * (b.toNat % 2 ^ 1) + 32 * (c.toNat % 2 ^ 6) +
        2 * (d.toNat % 2 ^ 4))) ∧
    (∀ a b c d : Word, (assembleJ a b c d).toInt =
      signed 21 (2 ^ 20 * (a.toNat % 2 ^ 1) + 4096 * (b.toNat % 2 ^ 8) + 2048 * (c.toNat % 2 ^ 1) +
        2 * (d.toNat % 2 ^ 10))) ∧
    (∀ u : Word, (assembleU u).toInt = signed 32 (4096 * (u.toNat % 2 ^ 20))) ∧
    Set.BijOn (fun (h, l) => assembleS h l) fragmentsS (signedWords 12) ∧
    Set.BijOn (fun (a, b, c, d) => assembleB a b c d) fragmentsB (signedWords 13 ∩ evenWords) ∧
    Set.BijOn (fun (a, b, c, d) => assembleJ a b c d) fragmentsJ (signedWords 21 ∩ evenWords) ∧
    Set.BijOn assembleU fragmentsU upperWords ∧
    (∀ x ∈ signedWords 12, assembleS (bits x 5 11) (bits x 0 4) = x) ∧
    (∀ x ∈ signedWords 13 ∩ evenWords,
      assembleB (bits x 12 12) (bits x 11 11) (bits x 5 10) (bits x 1 4) = x) ∧
    (∀ x ∈ signedWords 21 ∩ evenWords,
      assembleJ (bits x 20 20) (bits x 12 19) (bits x 11 11) (bits x 1 10) = x) ∧
    ∀ x ∈ upperWords, assembleU (bits x 12 31) = x :=
  ⟨toInt_assembleS, toInt_assembleB, toInt_assembleJ, toInt_assembleU, bijOn_assembleS,
    bijOn_assembleB, bijOn_assembleJ, bijOn_assembleU, fun _ hx => assembleS_split hx,
    fun _ hx => assembleB_split hx.1 hx.2, fun _ hx => assembleJ_split hx.1 hx.2,
    fun _ hx => assembleU_split hx⟩

/-- A jump offset that has ones and zeros in every fragment, which are taken from it in another
order than they stand in. -/
theorem assemblers_positional_jump :
    let x : Word := 0xFFF5AAAA
    x ∈ signedWords 21 ∩ evenWords ∧ x.toInt = -677206 ∧
      bits x 20 20 = 1 ∧ bits x 12 19 = 0x5A ∧ bits x 11 11 = 1 ∧ bits x 1 10 = 0x155 ∧
      assembleJ 1 0x5A 1 0x155 = x := by
  intro x
  have hfits : FitsSigned 21 x.toInt := by decide
  have heven : 2 ∣ x.toInt := by decide
  have h20 : bits x 20 20 = 1 := by decide
  have h19_12 : bits x 12 19 = 0x5A := by decide
  have h11 : bits x 11 11 = 1 := by decide
  have h10_1 : bits x 1 10 = 0x155 := by decide
  obtain ⟨-, -, -, -, -, -, -, -, -, -, hsplit, -⟩ := assemblers_positional
  have hback := hsplit x ⟨hfits, heven⟩
  rw [h20, h19_12, h11, h10_1] at hback
  exact ⟨⟨hfits, heven⟩, by rfl, h20, h19_12, h11, h10_1, hback⟩

end Imm

end RiscHart
