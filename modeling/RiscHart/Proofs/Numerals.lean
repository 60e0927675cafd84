import Mathlib.Algebra.Group.Int.Defs
import Mathlib.Algebra.Group.Nat.Defs
import RiscHart.Numeral

/-!
# Reading written numbers

Every kind of numeral can be read back to the number it was written for, so two numbers that are
written alike are the same.
-/

namespace RiscHart.Numeral

/-- The digit below `base` that a character stands for. -/
def digit? (base : Nat) (c : Char) : Option Nat := (List.range base).find? (·.digitChar = c)

/-- The number that digits stand for, the highest digit first. -/
def number? (base : Nat) (digits : List Char) : Option Nat :=
  digits.foldlM (fun n c => (digit? base c).map (base * n + ·)) 0

def decimal? (s : String) : Option Nat := number? 10 s.toList

def signed? (s : String) : Option Int :=
  match s.toList with
  | '-' :: digits => (number? 10 digits).map (-Int.ofNat ·)
  | digits => (number? 10 digits).map Int.ofNat

def hex? (s : String) : Option Nat :=
  match s.toList with
  | '0' :: 'x' :: digits => number? 16 digits
  | _ => none

section Digits

variable {base : Nat}

theorem digitChar_injective : ∀ d < 16, ∀ e < 16, d.digitChar = e.digitChar → d = e := by decide

theorem digit?_digitChar {d : Nat} (hle : base ≤ 16) (hd : d < base) :
    digit? base d.digitChar = some d := by
  have hsome : (digit? base d.digitChar).isSome := by
    rw [digit?, List.find?_isSome]
    exact ⟨d, List.mem_range.mpr hd, by simp⟩
  obtain ⟨e, he⟩ := Option.isSome_iff_exists.mp hsome
  have hlt : e < base := List.mem_range.mp (List.mem_of_find?_eq_some he)
  have hchar : e.digitChar = d.digitChar := by simpa using List.find?_some he
  rw [he, digitChar_injective e (by omega) d (by omega) hchar]

theorem number?_append_singleton (digits : List Char) (c : Char) :
    number? base (digits ++ [c]) =
      (number? base digits).bind fun n => (digit? base c).map (base * n + ·) := by
  simp [number?, List.foldlM_append]

theorem number?_toDigits (hbase : 1 < base) (hle : base ≤ 16) (n : Nat) :
    number? base (Nat.toDigits base n) = some n := by
  -- The last digit is split off, and the rest are the digits of the quotient.
  induction n using Nat.strongRecOn with
  | ind n ih =>
    rw [Nat.toDigits_eq_if hbase]
    by_cases hn : n < base
    · rw [if_pos hn]
      simp [number?, digit?_digitChar hle hn]
    · rw [if_neg hn, number?_append_singleton, ih (n / base) (Nat.div_lt_self (by omega) hbase),
        Option.bind_some, digit?_digitChar hle (Nat.mod_lt n (by omega)), Option.map_some,
        Nat.div_add_mod]

/-- Zeros in front make no difference. -/
theorem number?_leftpad (hbase : 1 < base) (hle : base ≤ 16) (k : Nat) (digits : List Char) :
    number? base (digits.leftpad k '0') = number? base digits := by
  have hzero : digit? base '0' = some 0 := digit?_digitChar hle (d := 0) (by omega)
  rw [List.leftpad]
  induction k - digits.length with
  | zero => rfl
  | succ k ih =>
    rw [← ih, List.replicate_succ, List.cons_append, number?, List.foldlM_cons, hzero]
    rfl

theorem exists_digit_of_mem_toDigits (hbase : 1 < base) {n : Nat} {c : Char}
    (hc : c ∈ Nat.toDigits base n) : ∃ d < base, c = d.digitChar := by
  induction n using Nat.strongRecOn with
  | ind n ih =>
    rw [Nat.toDigits_eq_if hbase] at hc
    by_cases hn : n < base
    · rw [if_pos hn] at hc
      exact ⟨n, hn, List.mem_singleton.mp hc⟩
    · rw [if_neg hn] at hc
      obtain hc | hc := List.mem_append.mp hc
      · exact ih (n / base) (Nat.div_lt_self (by omega) hbase) hc
      · exact ⟨n % base, Nat.mod_lt n (by omega), List.mem_singleton.mp hc⟩

end Digits

theorem decimal?_decimal (n : Nat) : decimal? (decimal n) = some n := by
  rw [decimal?, decimal, String.toList_ofList, number?_toDigits (by omega) (by omega)]

theorem hex?_hex (n : Nat) : hex? (hex n) = some n := by
  have hlist : (hex n).toList = '0' :: 'x' :: Nat.toDigits 16 n := by simp [hex]
  rw [hex?, hlist]
  exact number?_toDigits (by omega) (by omega) n

theorem signed?_signed (z : Int) : signed? (signed z) = some z := by
  cases z with
  | ofNat n =>
    have hlist : (signed (.ofNat n)).toList = Nat.toDigits 10 n := String.toList_ofList
    rw [signed?, hlist]
    split
    · next digits hdigits =>
      -- No digit is a minus sign.
      obtain ⟨d, hd, hc⟩ := exists_digit_of_mem_toDigits (by omega)
        (hdigits ▸ List.mem_cons_self : '-' ∈ Nat.toDigits 10 n)
      exact absurd hc.symm ((by decide : ∀ d < 10, d.digitChar ≠ '-') d hd)
    · rw [number?_toDigits (by omega) (by omega)]
      rfl
  | negSucc n =>
    have hlist : (signed (.negSucc n)).toList = '-' :: Nat.toDigits 10 (n + 1) := by
      simp [signed, decimal]
    rw [signed?, hlist]
    change (number? 10 (Nat.toDigits 10 (n + 1))).map _ = _
    rw [number?_toDigits (by omega) (by omega)]
    rfl

/-- Numbers padded to the same count of digits are written alike only if they are the same. -/
theorem leftpad_toDigits_injective {base k m n : Nat} (hbase : 1 < base) (hle : base ≤ 16)
    (h : (Nat.toDigits base m).leftpad k '0' = (Nat.toDigits base n).leftpad k '0') : m = n := by
  have hnumber := congrArg (number? base) h
  rw [number?_leftpad hbase hle, number?_leftpad hbase hle, number?_toDigits hbase hle,
    number?_toDigits hbase hle] at hnumber
  exact Option.some.inj hnumber

theorem binaryPadded_injective (k : Nat) : Function.Injective (binaryPadded k) := by
  intro m n h
  rw [binaryPadded, binaryPadded, String.append_right_inj, String.ofList_inj] at h
  exact leftpad_toDigits_injective (by omega) (by omega) h

theorem word_injective : Function.Injective word := by
  intro v w h
  rw [word, word, hexPadded, hexPadded, String.append_right_inj, String.ofList_inj] at h
  exact BitVec.eq_of_toNat_eq (leftpad_toDigits_injective (by omega) (by omega) h)

theorem length_word (w : BitVec 32) : (word w).length = 10 := by
  have hdigits : (Nat.toDigits 16 w.toNat).length ≤ 8 :=
    (Nat.length_toDigits_le_iff (by omega) (by omega)).mpr w.isLt
  simp only [word, hexPadded, String.length_append, String.length_ofList, List.length_leftpad]
  exact congrArg (2 + ·) (Nat.max_eq_left hdigits)

/-- Words are written equally long, so a text that ends in one can be cut before it. -/
theorem append_word_inj {s t : String} {v w : BitVec 32} (h : s ++ word v = t ++ word w) :
    s = t ∧ v = w := by
  have hlist := congrArg String.toList h
  rw [String.toList_append, String.toList_append] at hlist
  have hlength : (word v).toList.length = (word w).toList.length := by
    rw [String.length_toList, String.length_toList, length_word, length_word]
  obtain ⟨hfront, hword⟩ := List.append_inj' hlist hlength
  exact ⟨String.toList_inj.mp hfront, word_injective (String.toList_inj.mp hword)⟩

end RiscHart.Numeral
