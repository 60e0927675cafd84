import Mathlib.Algebra.BigOperators.Intervals
import Mathlib.Algebra.BigOperators.Ring.Finset
import RiscHart.Memory.Basic

/-!
# What a memory access does, byte by byte

`Memory.byte` is the view of a memory, a function from addresses, and `Memory.number` the
little-endian number in a run of bytes. Each access has one lemma: an equation that says when it
succeeds, with what, and what the error is otherwise, in terms of the view. All writes are writes
of some bytes at an address.
-/

namespace RiscHart

namespace LittleEndian

/-- What was written is read back modulo the power of 256 that so many bytes can hold. -/
theorem ofBytes_toBytes (count n : Nat) : ofBytes (toBytes count n) = n % 256 ^ count := by
  induction count generalizing n with
  | zero => simp [toBytes, ofBytes, Nat.mod_one]
  | succ count ih =>
    rw [toBytes, ofBytes, ih, Nat.pow_succ', Nat.mod_mul, BitVec.toNat_ofNat]

theorem ofBytes_map_range (f : Nat → Byte) (n : Nat) :
    ofBytes ((List.range n).map f) = ∑ k ∈ Finset.range n, (f k).toNat * 256 ^ k := by
  induction n generalizing f with
  | zero => rfl
  | succ n ih =>
    rw [List.range_succ_eq_map, List.map_cons, List.map_map, ofBytes, ih, Finset.sum_range_succ',
      Finset.mul_sum, pow_zero, mul_one, add_comm]
    congr 1
    apply Finset.sum_congr rfl
    intro k _
    rw [pow_succ', Function.comp_apply, Nat.mul_left_comm]

theorem getElem?_toBytes {count k : Nat} (n : Nat) (hk : k < count) :
    (toBytes count n)[k]? = some (BitVec.ofNat 8 (n / 256 ^ k)) := by
  induction count generalizing n k with
  | zero => omega
  | succ count ih =>
    cases k with
    | zero => simp [toBytes]
    | succ k =>
      rw [toBytes, List.getElem?_cons_succ, ih (n / 256) (by omega), Nat.div_div_eq_div_mul,
        pow_succ']

/-- The digits below the cut do not see it. -/
theorem mod_div_mod {n k : Nat} (x : Nat) (h : k < n) :
    x % 256 ^ n / 256 ^ k % 256 = x / 256 ^ k % 256 := by
  have hsplit : 256 ^ n = 256 ^ k * 256 ^ (n - k) := by rw [← pow_add, Nat.add_sub_cancel' h.le]
  have hdvd : 256 ∣ 256 ^ (n - k) := dvd_pow_self 256 (by omega)
  rw [hsplit, Nat.mod_mul_right_div_self, Nat.mod_mod_of_dvd _ hdvd]

/-- The lowest `n` bytes of a number, each by its place. -/
def lowBytes (n v : Nat) : List Byte := (List.range n).map fun k => BitVec.ofNat 8 (v / 256 ^ k)

@[simp] theorem length_lowBytes (n v : Nat) : (lowBytes n v).length = n := by simp [lowBytes]

theorem toBytes_eq_lowBytes (n v : Nat) : toBytes n v = lowBytes n v := by
  apply List.ext_getElem?
  intro k
  by_cases hk : k < n
  · rw [getElem?_toBytes v hk, lowBytes, List.getElem?_map, List.getElem?_range hk,
      Option.map_some]
  · rw [List.getElem?_eq_none (by simpa using hk), List.getElem?_eq_none (by simpa using hk)]

theorem lowBytes_mod (n v : Nat) : lowBytes n (v % 256 ^ n) = lowBytes n v := by
  apply List.map_congr_left
  intro k hk
  apply BitVec.eq_of_toNat_eq
  rw [BitVec.toNat_ofNat, BitVec.toNat_ofNat]
  exact mod_div_mod v (List.mem_range.mp hk)

end LittleEndian

namespace Memory

/-- The byte at an address. Behind the end there are zeros. -/
def byte (m : Memory) (a : Nat) : Byte := m.bytes[a]?.getD 0

/-- The little-endian number in the `n` bytes from `a` on. -/
def number (m : Memory) (a n : Nat) : Nat := ∑ k ∈ Finset.range n, (m.byte (a + k)).toNat * 256 ^ k

theorem ext_byte {m m' : Memory} (hc : m.capacity = m'.capacity)
    (hb : ∀ a, m.byte a = m'.byte a) : m = m' := by
  obtain ⟨bytes⟩ := m
  obtain ⟨bytes'⟩ := m'
  congr 1
  apply Array.ext hc
  intro a ha ha'
  have h := hb a
  simpa only [byte, Array.getElem?_eq_getElem ha, Array.getElem?_eq_getElem ha',
    Option.getD_some] using h

theorem number_lt (m : Memory) (a n : Nat) : m.number a n < 256 ^ n := by
  unfold number
  induction n with
  | zero => simp
  | succ n ih =>
    have hb := (m.byte (a + n)).isLt
    have hmul : (m.byte (a + n)).toNat * 256 ^ n ≤ 255 * 256 ^ n :=
      Nat.mul_le_mul_right _ (by omega)
    rw [Finset.sum_range_succ, pow_succ]
    omega

theorem number_congr {m m' : Memory} {a n : Nat}
    (h : ∀ b, a ≤ b → b < a + n → m.byte b = m'.byte b) : m.number a n = m'.number a n := by
  apply Finset.sum_congr rfl
  intro k hk
  have hkn := Finset.mem_range.mp hk
  rw [h (a + k) (by omega) (by omega)]

/-- A run of bytes that hold the digits of `v` by their places gives any part of `v`. -/
theorem number_of_places {m : Memory} {a n k j v : Nat}
    (h : ∀ b, a ≤ b → b < a + n → m.byte b = BitVec.ofNat 8 (v / 256 ^ (b - a)))
    (hkj : k + j ≤ n) : m.number (a + k) j = v / 256 ^ k % 256 ^ j := by
  have hbytes : ((List.range j).map fun l => m.byte (a + k + l)) =
      LittleEndian.lowBytes j (v / 256 ^ k) := by
    apply List.map_congr_left
    intro l hl
    have hlj := List.mem_range.mp hl
    have hplace : a + k + l - a = k + l := by omega
    rw [h (a + k + l) (by omega) (by omega), hplace, pow_add, Nat.div_div_eq_div_mul]
  rw [number, ← LittleEndian.ofBytes_map_range fun l => m.byte (a + k + l), hbytes,
    ← LittleEndian.toBytes_eq_lowBytes, LittleEndian.ofBytes_toBytes]

theorem toNat_ofNat_number (m : Memory) (w : Width) (a : Nat) :
    (BitVec.ofNat w.bits (m.number a w.bytes)).toNat = m.number a w.bytes := by
  have hpow : 2 ^ w.bits = 256 ^ w.bytes := pow_mul 2 8 w.bytes
  rw [BitVec.toNat_ofNat, hpow, Nat.mod_eq_of_lt (m.number_lt a w.bytes)]

theorem read?_eq (m : Memory) (a n : Nat) :
    m.read? a n =
      if a + n ≤ m.capacity then some ((List.range n).map fun k => m.byte (a + k)) else none := by
  unfold read?
  split
  · next h =>
    have hsize : a + n ≤ m.bytes.size := h
    congr 1
    apply List.ext_getElem
    · simp only [Array.length_toList, Array.size_extract, List.length_map, List.length_range]
      omega
    · intro k hk hk'
      have hkn : k < n := by simpa using hk'
      simp only [Array.getElem_toList, Array.getElem_extract, List.getElem_map,
        List.getElem_range, byte]
      rw [Array.getElem?_eq_getElem (by omega), Option.getD_some]
  · rfl

theorem readBytes_eq (m : Memory) (addr : Word) (n : Nat) :
    m.readBytes addr n =
      if addr.toNat + n ≤ m.capacity then
        .ok ((List.range n).map fun k => m.byte (addr.toNat + k))
      else .error (.outOfBounds addr n m.capacity) := by
  rw [readBytes, read?_eq]
  by_cases h : addr.toNat + n ≤ m.capacity
  · simp only [if_pos h]
  · simp only [if_neg h]

theorem load_eq (m : Memory) (w : Width) (addr : Word) :
    m.load w addr =
      if addr.toNat + w.bytes ≤ m.capacity then
        .ok (BitVec.ofNat w.bits (m.number addr.toNat w.bytes))
      else .error (.outOfBounds addr w.bytes m.capacity) := by
  rw [load, readBytes_eq]
  by_cases h : addr.toNat + w.bytes ≤ m.capacity
  · simp only [if_pos h, Except.map, LittleEndian.ofBytes_map_range]
    rfl
  · simp only [if_neg h, Except.map]

/-- The word that a load makes of the bytes from `a` on. -/
def loaded (m : Memory) (f : LoadOp) (a : Nat) : Word :=
  f.extend (BitVec.ofNat f.width.bits (m.number a f.width.bytes))

theorem loaded_congr {m m' : Memory} {f : LoadOp} {a : Nat}
    (h : ∀ b, a ≤ b → b < a + f.width.bytes → m.byte b = m'.byte b) :
    m.loaded f a = m'.loaded f a := by
  rw [loaded, loaded, number_congr h]

/-- Where the bytes of a word lie, a load gives the bits of the word that it covers. -/
theorem loaded_of_places {m : Memory} {a n k : Nat} {v : Word}
    (h : ∀ b, a ≤ b → b < a + n → m.byte b = BitVec.ofNat 8 (v.toNat / 256 ^ (b - a)))
    {f : LoadOp} (hk : k + f.width.bytes ≤ n) :
    m.loaded f (a + k) = f.extend (v.extractLsb' (8 * k) f.width.bits) := by
  rw [loaded, number_of_places h hk]
  congr 1
  apply BitVec.eq_of_toNat_eq
  have hplace : 256 ^ k = 2 ^ (8 * k) := (pow_mul 2 8 k).symm
  have hcut : 256 ^ f.width.bytes = 2 ^ f.width.bits := (pow_mul 2 8 f.width.bytes).symm
  rw [hplace, hcut, BitVec.toNat_ofNat, Nat.mod_mod, BitVec.extractLsb'_toNat,
    Nat.shiftRight_eq_div_pow]

theorem loadWord_eq (m : Memory) (f : LoadOp) (addr : Word) :
    m.loadWord f addr =
      if addr.toNat + f.width.bytes ≤ m.capacity then .ok (m.loaded f addr.toNat)
      else .error (.outOfBounds addr f.width.bytes m.capacity) := by
  rw [loadWord, load_eq]
  by_cases h : addr.toNat + f.width.bytes ≤ m.capacity
  · rw [if_pos h, if_pos h]
    rfl
  · rw [if_neg h, if_neg h]
    rfl

/-- The memory with the bytes from `a` on replaced. -/
def put (m : Memory) (a : Nat) (data : List Byte) : Memory := ⟨overwrite m.bytes a data⟩

theorem capacity_put (m : Memory) (a : Nat) (data : List Byte) :
    (m.put a data).capacity = m.capacity := size_overwrite m.bytes a data

theorem byte_put (m : Memory) {a : Nat} {data : List Byte} (h : a + data.length ≤ m.capacity)
    (b : Nat) :
    (m.put a data).byte b =
      if a ≤ b ∧ b < a + data.length then data[b - a]?.getD 0 else m.byte b := by
  by_cases hb : b < m.bytes.size
  · unfold byte put
    rw [getElem?_overwrite m.bytes a b data hb]
    split <;> rfl
  · have hout : ¬ (a ≤ b ∧ b < a + data.length) := by
      have hsize : a + data.length ≤ m.bytes.size := h
      omega
    rw [if_neg hout]
    unfold byte put
    rw [Array.getElem?_eq_none (by rw [size_overwrite]; omega), Array.getElem?_eq_none (by omega)]

/-- Writes to bytes of which none is in both can be made in either order. -/
theorem put_comm (m : Memory) {a c : Nat} {data data' : List Byte}
    (ha : a + data.length ≤ m.capacity) (hc : c + data'.length ≤ m.capacity)
    (hd : Disjoint (Finset.Ico a (a + data.length)) (Finset.Ico c (c + data'.length))) :
    (m.put a data).put c data' = (m.put c data').put a data := by
  apply ext_byte
  · rw [capacity_put, capacity_put, capacity_put, capacity_put]
  · intro b
    rw [byte_put _ (by rwa [capacity_put]), byte_put _ ha, byte_put _ (by rwa [capacity_put]),
      byte_put _ hc]
    by_cases hb : a ≤ b ∧ b < a + data.length
    · have hout : ¬ (c ≤ b ∧ b < c + data'.length) := by
        simpa only [Finset.mem_Ico] using Finset.disjoint_left.mp hd (Finset.mem_Ico.mpr hb)
      rw [if_neg hout, if_pos hb, if_pos hb]
    · rw [if_neg hb, if_neg hb]

theorem writeBytes_eq (m : Memory) (addr : Word) (data : List Byte) :
    m.writeBytes addr data =
      if addr.toNat + data.length ≤ m.capacity then .ok (m.put addr.toNat data)
      else .error (.outOfBounds addr data.length m.capacity) := by
  unfold writeBytes write?
  by_cases h : addr.toNat + data.length ≤ m.capacity
  · simp only [if_pos h]
    rfl
  · simp only [if_neg h]

/-- The bytes a store of a word leaves behind. -/
def putWord (m : Memory) (w : Width) (a : Nat) (v : Word) : Memory :=
  m.put a (LittleEndian.toBytes w.bytes (v.setWidth w.bits).toNat)

theorem storeWord_eq (m : Memory) (w : Width) (addr v : Word) :
    m.storeWord w addr v =
      if addr.toNat + w.bytes ≤ m.capacity then .ok (m.putWord w addr.toNat v)
      else .error (.outOfBounds addr w.bytes m.capacity) := by
  rw [storeWord, store, writeBytes_eq, LittleEndian.length_toBytes]
  rfl

theorem byte_putWord (m : Memory) (w : Width) {a : Nat} (h : a + w.bytes ≤ m.capacity) (v : Word)
    (b : Nat) :
    (m.putWord w a v).byte b =
      if a ≤ b ∧ b < a + w.bytes then BitVec.ofNat 8 (v.toNat / 256 ^ (b - a)) else m.byte b := by
  have hlen := LittleEndian.length_toBytes w.bytes (v.setWidth w.bits).toNat
  rw [putWord, byte_put m (by rw [hlen]; exact h), hlen]
  by_cases hb : a ≤ b ∧ b < a + w.bytes
  · rw [if_pos hb, if_pos hb, LittleEndian.getElem?_toBytes _ (by omega), Option.getD_some]
    apply BitVec.eq_of_toNat_eq
    have hpow : 2 ^ w.bits = 256 ^ w.bytes := pow_mul 2 8 w.bytes
    rw [BitVec.toNat_ofNat, BitVec.toNat_ofNat, BitVec.toNat_setWidth, hpow]
    exact LittleEndian.mod_div_mod v.toNat (by omega)
  · rw [if_neg hb, if_neg hb]

end Memory

/-- A write to memory by an address. -/
inductive MemoryWrite where
  /-- A store of a value that fills the width. -/
  | store (width : Width) (addr : Word) (v : BitVec width.bits)
  /-- A store of the low bytes of a word. -/
  | storeWord (width : Width) (addr v : Word)
  | writeBytes (addr : Word) (data : List Byte)

namespace MemoryWrite

def apply (m : Memory) : MemoryWrite → Except MemoryError Memory
  | store width addr v => m.store width addr v
  | storeWord width addr v => m.storeWord width addr v
  | writeBytes addr data => m.writeBytes addr data

def addr : MemoryWrite → Word
  | store _ addr _ | storeWord _ addr _ | writeBytes addr _ => addr

def data : MemoryWrite → List Byte
  | store width _ v => LittleEndian.lowBytes width.bytes v.toNat
  | storeWord width _ v => LittleEndian.lowBytes width.bytes v.toNat
  | writeBytes _ data => data

theorem apply_eq_writeBytes (m : Memory) (x : MemoryWrite) :
    x.apply m = m.writeBytes x.addr x.data := by
  cases x with
  | store width addr v =>
    rw [apply, Memory.store, LittleEndian.toBytes_eq_lowBytes]
    rfl
  | storeWord width addr v =>
    have hpow : 2 ^ width.bits = 256 ^ width.bytes := pow_mul 2 8 width.bytes
    rw [apply, Memory.storeWord, Memory.store, LittleEndian.toBytes_eq_lowBytes,
      BitVec.toNat_setWidth, hpow, LittleEndian.lowBytes_mod]
    rfl
  | writeBytes addr data => rfl

end MemoryWrite

end RiscHart
