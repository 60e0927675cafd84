import RiscHart.Proofs.Assembler
import RiscHart.Proofs.ManualValues

/-!
# The two orders of words

Words are ordered as unsigned and as signed numbers. Branches test these orders, comparisons give
them as zero or one, and a subtraction shows them in its borrow, or in its sign once overflow is
taken into account. All of these agree, and each of the two is a strict linear order.
-/

namespace RiscHart

/-- The word in which the sign bit alone is set. -/
def signBit : Word := 0x80000000

/-- The overflow condition of a signed subtraction: the operands differ in sign, and the result
does not have the sign of the first. -/
def AluOp.subOverflows (a b : Word) : Bool :=
  a.msb != b.msb && (sub.eval a b).msb != a.msb

/-- The signed value of a word by its unsigned value. -/
theorem toInt_eq_ite (x : Word) :
    x.toInt = if x.toNat < 2 ^ 31 then (x.toNat : Int) else (x.toNat : Int) - 2 ^ 32 :=
  (signed_toNat (by omega) x).symm

/-- The difference of two words is off by `2 ^ 32` exactly when it had to borrow. -/
theorem toNat_sub_eq (a b : Word) :
    ((AluOp.sub.eval a b).toNat : Int) =
      if a.toNat < b.toNat then (a.toNat : Int) - b.toNat + 2 ^ 32
      else (a.toNat : Int) - b.toNat := by
  have ha := a.isLt
  have hb := b.isLt
  rw [AluOp.eval, ← wrap_sub_toNat, wrap]
  split <;> omega

theorem sub_eq_zero_iff (a b : Word) : AluOp.sub.eval a b = 0 ↔ a = b := by
  have hadd : AluOp.sub.eval a b = 0 ↔ a = 0#32 + b := BitVec.sub_eq_iff_eq_add
  rw [hadd, BitVec.zero_add]

/-- Flipping the sign bit puts the signed numbers in the order of the unsigned ones. -/
theorem toNat_xor_signBit (x : Word) :
    ((AluOp.xor.eval x signBit).toNat : Int) = x.toInt + 2 ^ 31 := by
  have hlow : (x.toNat ^^^ 2 ^ 31) % 2 ^ 31 = x.toNat % 2 ^ 31 := by
    rw [Nat.xor_mod_two_pow, Nat.mod_self, Nat.xor_zero]
  have hhigh : (x.toNat ^^^ 2 ^ 31) / 2 ^ 31 = 1 - x.toNat / 2 ^ 31 := by
    have hx := x.isLt
    have htop : x.toNat / 2 ^ 31 = 0 ∨ x.toNat / 2 ^ 31 = 1 := by omega
    rw [Nat.xor_div_two_pow, Nat.div_self (by omega)]
    rcases htop with h | h <;> rw [h] <;> rfl
  have hxor : (AluOp.xor.eval x signBit).toNat = x.toNat ^^^ 2 ^ 31 := BitVec.toNat_xor x signBit
  rw [hxor, toInt_eq_ite]
  split <;> omega

/-- A subtraction overflows when the signed difference is no signed word. -/
theorem subOverflows_iff (a b : Word) :
    AluOp.subOverflows a b = true ↔ ¬ FitsSigned 32 (a.toInt - b.toInt) := by
  have ha := a.isLt
  have hb := b.isLt
  have hd := toNat_sub_eq a b
  simp only [AluOp.subOverflows, BitVec.msb_eq_decide, toInt_eq_ite, FitsSigned, Bool.and_eq_true,
    bne_iff_ne, ne_eq, decide_eq_decide]
  split at hd <;> split <;> split <;> omega

/-- The sign of a difference tells the signed order, and tells the opposite if the subtraction
overflows. -/
theorem msb_sub_iff (a b : Word) :
    (AluOp.sub.eval a b).msb = true ↔
      (a.toInt < b.toInt ↔ FitsSigned 32 (a.toInt - b.toInt)) := by
  have ha := a.isLt
  have hb := b.isLt
  have hd := toNat_sub_eq a b
  simp only [BitVec.msb_eq_decide, toInt_eq_ite, FitsSigned, decide_eq_true_iff]
  split at hd <;> split <;> split <;> omega

namespace Condition

theorem lt_iff (a b : Word) : lt.holds a b = true ↔ a.toInt < b.toInt := BitVec.slt_iff_toInt_lt

theorem ltu_iff (a b : Word) : ltu.holds a b = true ↔ a.toNat < b.toNat := BitVec.ult_iff_toNat_lt

theorem eq_iff (a b : Word) : eq.holds a b = true ↔ a = b := beq_iff_eq

/-- The signed order is the sign of the difference, corrected for overflow. -/
theorem lt_holds_eq (a b : Word) :
    lt.holds a b = ((AluOp.sub.eval a b).msb != AluOp.subOverflows a b) := by
  have hover := subOverflows_iff a b
  have hsign := msb_sub_iff a b
  rw [← lt_iff] at hsign
  cases ho : AluOp.subOverflows a b with
  | false =>
    have hfits : FitsSigned 32 (a.toInt - b.toInt) := by simpa [ho] using hover
    rw [Bool.bne_false, Bool.eq_iff_iff, hsign, iff_true_right hfits]
  | true =>
    have hfits := hover.mp ho
    rw [Bool.bne_true, Bool.eq_iff_iff, Bool.not_eq_true', ← Bool.not_eq_true, hsign,
      iff_false_right hfits, not_not]

/-- Flipping the sign bits turns the signed order into the unsigned one. -/
theorem lt_holds_eq_ltu (a b : Word) :
    lt.holds a b = ltu.holds (AluOp.xor.eval a signBit) (AluOp.xor.eval b signBit) := by
  have ha := toNat_xor_signBit a
  have hb := toNat_xor_signBit b
  rw [Bool.eq_iff_iff, lt_iff, ltu_iff]
  omega

/-- A condition that compares words by a value of their own orders them strictly and linearly. -/
theorem strict_linear_of_key {α : Type} [LinearOrder α] {key : Word → α} {k : Condition}
    (hinj : Function.Injective key) (hk : ∀ x y, k.holds x y = true ↔ key x < key y)
    (a b c : Word) :
    [k.holds a b, eq.holds a b, k.holds b a].count true = 1 ∧
      (k.holds a b → k.holds b c → k.holds a c) := by
  have hlt : ∀ x y, k.holds x y = decide (key x < key y) := by
    intro x y
    rw [Bool.eq_iff_iff, hk, decide_eq_true_iff]
  have heq : eq.holds a b = decide (key a = key b) := by
    rw [Bool.eq_iff_iff, eq_iff, decide_eq_true_iff, hinj.eq_iff]
  constructor
  · rw [hlt, hlt, heq]
    rcases lt_trichotomy (key a) (key b) with h | h | h
    · simp [h, h.ne, h.not_gt]
    · simp [h]
    · simp [h, h.ne', h.not_gt]
  · rw [hk, hk, hk]
    exact lt_trans

/-- Branches, comparisons and subtractions know the same two orders. -/
theorem agrees_with_arithmetic (a b c : Word) :
    (ltu.holds a b ↔ AluOp.sltu.eval a b = 1) ∧
    (ltu.holds a b ↔ ((AluOp.sub.eval a b).toNat : Int) = a.toNat - b.toNat + 2 ^ 32) ∧
    (¬ ltu.holds a b ↔ ((AluOp.sub.eval a b).toNat : Int) = a.toNat - b.toNat) ∧
    (lt.holds a b ↔ AluOp.slt.eval a b = 1) ∧
    lt.holds a b = ((AluOp.sub.eval a b).msb != AluOp.subOverflows a b) ∧
    lt.holds a b = ltu.holds (AluOp.xor.eval a signBit) (AluOp.xor.eval b signBit) ∧
    (eq.holds a b ↔ AluOp.sub.eval a b = 0) ∧
    (eq.holds a b ↔ AluOp.xor.eval a b = 0) ∧
    ne.holds a b = !eq.holds a b ∧ ge.holds a b = !lt.holds a b ∧
    geu.holds a b = !ltu.holds a b ∧
    ∀ k ∈ [lt, ltu], [k.holds a b, eq.holds a b, k.holds b a].count true = 1 ∧
      (k.holds a b → k.holds b c → k.holds a c) := by
  have hborrow := toNat_sub_eq a b
  have hset : ∀ p : Bool, p = true ↔ (if p then 1 else 0 : Word) = 1 := by decide
  refine ⟨hset _, ?_, ?_, hset _, lt_holds_eq a b, lt_holds_eq_ltu a b, ?_, ?_, rfl,
    BitVec.sle_eq_not_slt, BitVec.ule_eq_not_ult b a, ?_⟩
  · rw [ltu_iff, hborrow]
    split <;> omega
  · rw [ltu_iff, hborrow]
    split <;> omega
  · rw [eq_iff, sub_eq_zero_iff]
  · rw [eq_iff]
    exact BitVec.xor_eq_zero_iff.symm
  · rintro k hk
    rw [List.mem_pair] at hk
    rcases hk with rfl | rfl
    · exact strict_linear_of_key (fun x y => BitVec.eq_of_toInt_eq) lt_iff a b c
    · exact strict_linear_of_key (fun x y => BitVec.eq_of_toNat_eq) ltu_iff a b c

/-- The least signed word, minus one and the greatest signed word, which the unsigned order puts
the other way round. -/
theorem agrees_with_arithmetic_extremes :
    lt ∈ [lt, ltu] ∧ lt.holds 0x80000000#32 0xFFFFFFFF#32 ∧ lt.holds 0xFFFFFFFF#32 0x7FFFFFFF#32 ∧
      lt.holds 0x80000000#32 0x7FFFFFFF#32 := by
  have hk : lt ∈ [lt, ltu] := List.mem_cons_self
  have h₁ : lt.holds 0x80000000#32 0xFFFFFFFF#32 := by decide
  have h₂ : lt.holds 0xFFFFFFFF#32 0x7FFFFFFF#32 := by decide
  obtain ⟨-, -, -, -, -, -, -, -, -, -, -, horder⟩ :=
    agrees_with_arithmetic 0x80000000#32 0xFFFFFFFF#32 0x7FFFFFFF#32
  exact ⟨hk, h₁, h₂, (horder lt hk).2 h₁ h₂⟩

end Condition

end RiscHart
