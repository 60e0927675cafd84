import Mathlib.Algebra.BigOperators.Group.Finset.Basic
import RiscHart.Proofs.Fragments

/-!
# Extraction of bits

A range of bits is taken from a word by a shift and a mask, and a mask is a power of two less one,
except that the mask of all bits of a word has no power of two above it. No operation on the way
leaves the word. What is taken is a quotient and a remainder, so in whatever places a word is cut,
the values of the pieces, each at its place, add up to the word.
-/

namespace RiscHart

/-! Operations on words that fail where the exact result is no word, and shifts that fail where
no bit of the word would stay. -/

/-- The word of an integer, if there is one. -/
def exactWord? (z : Int) : Option Word := if 0 ≤ z ∧ z < 2 ^ 32 then some (.ofInt 32 z) else none

def checkedAdd (a b : Word) : Option Word := exactWord? (a.toNat + b.toNat)

def checkedSub (a b : Word) : Option Word := exactWord? (a.toNat - b.toNat)

def checkedShift (shift : Word → Nat → Word) (a amount : Word) : Option Word :=
  if amount.toNat < 32 then some (shift a amount.toNat) else none

theorem exactWord?_natCast {n : Nat} (hn : n < 2 ^ 32) : exactWord? n = some (.ofNat 32 n) := by
  rw [exactWord?, if_pos (by omega), BitVec.ofInt_natCast]

theorem checkedAdd_ofNat {a b : Nat} (h : a + b < 2 ^ 32) :
    checkedAdd (.ofNat 32 a) (.ofNat 32 b) = some (.ofNat 32 (a + b)) := by
  rw [checkedAdd, toNat_ofNat_of_lt (by omega), toNat_ofNat_of_lt (by omega), ← Int.natCast_add,
    exactWord?_natCast h]

theorem checkedSub_ofNat {a b : Nat} (ha : a < 2 ^ 32) (h : b ≤ a) :
    checkedSub (.ofNat 32 a) (.ofNat 32 b) = some (.ofNat 32 (a - b)) := by
  rw [checkedSub, toNat_ofNat_of_lt ha, toNat_ofNat_of_lt (by omega), ← Int.ofNat_sub h,
    exactWord?_natCast (by omega)]

theorem checkedShift_ofNat (shift : Word → Nat → Word) (a : Word) {n : Nat} (hn : n < 32) :
    checkedShift shift a (.ofNat 32 n) = some (shift a n) := by
  rw [checkedShift, toNat_ofNat_of_lt (by omega), if_pos hn]

/-- The mask of the lowest `width` bits: the next bit above them, less one. A whole word has no bit
above it, and its mask is written down. -/
def checkedMask (width : Word) : Option Word :=
  if width = 32 then
    some (.allOnes 32)
  else do
    let above ← checkedShift (· <<< ·) 1 width
    checkedSub above 1

/-- Extraction with every operation checked, those on bit positions too. -/
def checkedBits (w low high : Word) : Option Word := do
  let span ← checkedSub high low
  let width ← checkedAdd span 1
  let mask ← checkedMask width
  let moved ← checkedShift (· >>> ·) w low
  return moved &&& mask

theorem toNat_lowMask {n : Nat} (hn : n ≤ 32) : (lowMask n).toNat = 2 ^ n - 1 := by
  rw [lowMask, BitVec.toNat_setWidth_of_le hn, BitVec.toNat_allOnes]

theorem checkedMask_ofNat {width : Nat} (hwidth : width ≤ 32) :
    checkedMask (.ofNat 32 width) = some (lowMask width) := by
  rcases Nat.lt_or_eq_of_le hwidth with hlt | rfl
  -- The bit above the mask is a bit of the word, and the difference is that of the numbers.
  · have hne : BitVec.ofNat 32 width ≠ 32 := by
      intro h
      have hnat := congrArg BitVec.toNat h
      rw [toNat_ofNat_of_lt (by omega)] at hnat
      exact hlt.ne hnat
    have hpow : 2 ^ width < 2 ^ 32 := Nat.pow_lt_pow_right (by omega) hlt
    have habove : (1 : Word) <<< width = BitVec.ofNat 32 (2 ^ width) := by
      apply BitVec.eq_of_toNat_eq
      rw [BitVec.toNat_shiftLeft, Nat.shiftLeft_eq, BitVec.toNat_ofNat]
      exact congrArg (· % 2 ^ 32) (Nat.one_mul (2 ^ width))
    have hmask : lowMask width = BitVec.ofNat 32 (2 ^ width - 1) := by
      apply BitVec.eq_of_toNat_eq
      rw [toNat_lowMask hwidth, toNat_ofNat_of_lt (by omega)]
    rw [checkedMask, if_neg hne, checkedShift_ofNat _ _ hlt]
    change checkedSub ((1 : Word) <<< width) (.ofNat 32 1) = _
    rw [habove, checkedSub_ofNat hpow Nat.one_le_two_pow, hmask]
  · rfl

theorem checkedBits_ofNat {low high : Nat} (hlow : low ≤ high) (hhigh : high < 32) (w : Word) :
    checkedBits w (.ofNat 32 low) (.ofNat 32 high) = some (bits w low high) := by
  have hspan : checkedSub (.ofNat 32 high) (.ofNat 32 low) = some (.ofNat 32 (high - low)) :=
    checkedSub_ofNat (by omega) hlow
  have hwidth : checkedAdd (.ofNat 32 (high - low)) 1 = some (.ofNat 32 (high - low + 1)) :=
    checkedAdd_ofNat (show high - low + 1 < 2 ^ 32 by omega)
  have hmask := checkedMask_ofNat (show high - low + 1 ≤ 32 by omega)
  have hmoved := checkedShift_ofNat (· >>> ·) w (show low < 32 by omega)
  rw [checkedBits, hspan, Option.bind_eq_bind, Option.bind_some, hwidth, Option.bind_some, hmask,
    Option.bind_some, hmoved]
  rfl

/-! The pieces of a word. -/

/-- The positions at which a word is cut into `n` pieces, with its two ends. -/
structure Cuts (n : Nat) where
  position : Nat → Nat
  first : position 0 = 0
  last : position n = 32
  increasing : ∀ i < n, position i < position (i + 1)

/-- The bits below a position, and above them those up to a higher one. -/
theorem mod_add_bitField (x : Nat) {low high : Nat} (h : low < high) :
    x % 2 ^ low + bitField x low (high - 1) * 2 ^ low = x % 2 ^ high := by
  obtain ⟨k, rfl⟩ : ∃ k, high = low + k := ⟨high - low, by omega⟩
  rw [bitField, show low + k - 1 + 1 - low = k by omega, pow_add, Nat.mod_mul, Nat.mul_comm]

namespace Cuts

variable {n : Nat}

theorem position_le (c : Cuts n) {k : Nat} (hk : k ≤ n) : c.position k ≤ 32 := by
  induction hk using Nat.decreasingInduction with
  | self => exact c.last.le
  | of_succ k hk ih => exact (c.increasing k hk).le.trans ih

/-- The first pieces make up the bits below the cut that ends them. -/
theorem sum_bitField (c : Cuts n) (x : Nat) {k : Nat} (hk : k ≤ n) :
    ∑ i ∈ Finset.range k, bitField x (c.position i) (c.position (i + 1) - 1) * 2 ^ c.position i =
      x % 2 ^ c.position k := by
  induction k with
  | zero => rw [Finset.sum_range_zero, c.first, pow_zero, Nat.mod_one]
  | succ k ih =>
    rw [Finset.sum_range_succ, ih (by omega), mod_add_bitField x (c.increasing k hk)]

theorem toNat_bits_cut (c : Cuts n) (w : Word) {i : Nat} (hi : i < n) :
    (bits w (c.position i) (c.position (i + 1) - 1)).toNat =
      bitField w.toNat (c.position i) (c.position (i + 1) - 1) := by
  have hlow := c.increasing i hi
  have hhigh : c.position (i + 1) ≤ 32 := c.position_le hi
  exact toNat_bits (by omega) (by omega) w

/-- The pieces of a word, each at its place, add up to the word. -/
theorem sum_bits (c : Cuts n) (w : Word) :
    ∑ i ∈ Finset.range n,
      (bits w (c.position i) (c.position (i + 1) - 1)).toNat * 2 ^ c.position i = w.toNat := by
  calc
    _ = ∑ i ∈ Finset.range n,
        bitField w.toNat (c.position i) (c.position (i + 1) - 1) * 2 ^ c.position i :=
      Finset.sum_congr rfl fun i hi => by rw [c.toNat_bits_cut w (Finset.mem_range.mp hi)]
    _ = w.toNat % 2 ^ c.position n := c.sum_bitField w.toNat le_rfl
    _ = w.toNat := by rw [c.last, Nat.mod_eq_of_lt w.isLt]

end Cuts

/-- What is extracted is the remainder of a quotient. No step of it leaves the word, and the mask
is right for all widths up to that of a whole word. The pieces of a word that is cut in any places
add up to it. -/
theorem bits_recombine (w : Word) :
    (∀ low high : Nat, low ≤ high → high ≤ 31 →
      (bits w low high).toNat = w.toNat / 2 ^ low % 2 ^ (high - low + 1) ∧
        checkedBits w (.ofNat 32 low) (.ofNat 32 high) = some (bits w low high)) ∧
    (∀ width : Nat, 1 ≤ width → width ≤ 32 →
      checkedMask (.ofNat 32 width) = some (lowMask width) ∧
        (lowMask width).toNat = 2 ^ width - 1) ∧
    ∀ (n : Nat) (c : Cuts n), ∑ i ∈ Finset.range n,
      (bits w (c.position i) (c.position (i + 1) - 1)).toNat * 2 ^ c.position i = w.toNat := by
  refine ⟨fun low high hlow hhigh => ⟨?_, ?_⟩, fun width _ hwidth => ⟨?_, ?_⟩, fun n c => ?_⟩
  · have hwidth : high + 1 - low = high - low + 1 := by omega
    rw [toNat_bits hlow (by omega), bitField, hwidth]
  · exact checkedBits_ofNat hlow (by omega) w
  · exact checkedMask_ofNat hwidth
  · exact toNat_lowMask hwidth
  · exact c.sum_bits w

/-- The whole of a word, and the word cut right above its lowest and right below its highest
bit. -/
theorem bits_recombine_ends :
    let w : Word := 0xDEADBEEF
    0 ≤ 31 ∧ 31 ≤ 31 ∧ 1 ≤ 32 ∧ 32 ≤ 32 ∧ checkedMask 32 = some 0xFFFFFFFF ∧
      checkedBits w 0 31 = some w ∧
      (bits w 0 0).toNat * 2 ^ 0 + (bits w 1 30).toNat * 2 ^ 1 + (bits w 31 31).toNat * 2 ^ 31 =
        w.toNat := by
  intro w
  let c : Cuts 3 := ⟨fun i => [0, 1, 31, 32].getD i 32, rfl, rfl, by decide⟩
  obtain ⟨hbits, hmask, hsum⟩ := bits_recombine w
  have hwhole : bits w 0 31 = w := by decide
  have hend := hsum 3 c
  rw [Finset.sum_range_succ, Finset.sum_range_succ, Finset.sum_range_one] at hend
  refine ⟨by omega, le_rfl, by omega, le_rfl, (hmask 32 (by omega) le_rfl).1, ?_, hend⟩
  exact (hbits 0 31 (by omega) le_rfl).2.trans (congrArg some hwhole)

end RiscHart
