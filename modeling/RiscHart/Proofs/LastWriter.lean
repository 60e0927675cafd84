import RiscHart.Proofs.Integers
import RiscHart.Proofs.MemoryAccess

/-!
# Memory as a map of the bytes written last

However a memory is used, its bytes are those written last, and zero where nothing was written.
The journal of a sequence of accesses holds what the writes among them wrote, and from it alone
every answer follows: an access succeeds exactly when it ends within the capacity, a read gives the
bytes written last or the number they make up, and what is refused changes nothing.
-/

namespace RiscHart

/-- An access to a memory. Those by an address can fail with an error, those by an offset, to the
bytes as such, with nothing. -/
inductive Access where
  | write (x : MemoryWrite)
  | writeSlice (offset : Nat) (data : List Byte)
  | load (width : Width) (addr : Word)
  /-- A load that is extended to a word. -/
  | loadWord (width : Width) (signed : Bool) (addr : Word)
  | readBytes (addr : Word) (count : Nat)
  | readSlice (offset count : Nat)
  /-- A read of bytes as an array of that length. -/
  | readArray (offset count : Nat)

inductive Reply where
  | done
  | number (n : Nat)
  | bytes (data : List Byte)
  | fault (e : MemoryError)
  | nothing
  deriving DecidableEq

namespace Access

/-! What the memory does. -/

def written (m : Memory) : Except MemoryError Memory → Memory × Reply
  | .ok m' => (m', .done)
  | .error e => (m, .fault e)

def found {α : Type} (m : Memory) (reply : α → Reply) : Except MemoryError α → Memory × Reply
  | .ok a => (m, reply a)
  | .error e => (m, .fault e)

/-- The list as an array of a given length, if it has that length. -/
def toVector? (n : Nat) (data : List Byte) : Option (Vector Byte n) :=
  if h : data.length = n then some ⟨data.toArray, h⟩ else none

def perform (m : Memory) : Access → Memory × Reply
  | write x => written m (x.apply m)
  | writeSlice offset data => (m.write? offset data).elim (m, .nothing) fun m' => (m', .done)
  | load width addr => found m (fun v => .number v.toNat) (m.load width addr)
  | loadWord width signed addr =>
    found m (fun v => .number v.toNat) (m.loadWord (.of width signed) addr)
  | readBytes addr count => found m .bytes (m.readBytes addr count)
  | readSlice offset count => (m, (m.read? offset count).elim .nothing .bytes)
  | readArray offset count =>
    (m, ((m.read? offset count).bind (toVector? count)).elim .nothing fun v => .bytes v.toList)

/-- The memory after a sequence of accesses, some of which may fail. -/
def after (m : Memory) (xs : List Access) : Memory := xs.foldl (fun m x => (x.perform m).1) m

/-! What the journal says. -/

def start : Access → Nat
  | write x => x.addr.toNat
  | load _ addr | loadWord _ _ addr | readBytes addr _ => addr.toNat
  | writeSlice offset _ | readSlice offset _ | readArray offset _ => offset

def size : Access → Nat
  | write x => x.data.length
  | writeSlice _ data => data.length
  | load width _ | loadWord width _ _ => width.bytes
  | readBytes _ count | readSlice _ count | readArray _ count => count

def data? : Access → Option (List Byte)
  | write x => some x.data
  | writeSlice _ data => some data
  | load _ _ | loadWord _ _ _ | readBytes _ _ | readSlice _ _ | readArray _ _ => none

/-- What an access writes and where, if it is a write that ends within the capacity. -/
def update? (capacity : Nat) (x : Access) : Option (Nat × List Byte) :=
  if x.start + x.size ≤ capacity then x.data?.map fun data => (x.start, data) else none

/-- All that a sequence of accesses writes, the latest first. -/
def journal (capacity : Nat) (xs : List Access) : List (Nat × List Byte) :=
  (xs.filterMap (update? capacity)).reverse

/-- The byte that the latest entry for an address gives it. -/
def lastByte (entries : List (Nat × List Byte)) (b : Nat) : Byte :=
  match entries.find? fun p => p.1 ≤ b ∧ b < p.1 + p.2.length with
  | some p => p.2[b - p.1]?.getD 0
  | none => 0

/-- The little-endian number in the `n` bytes from `a` on. -/
def numberAt (byte : Nat → Byte) (a n : Nat) : Nat :=
  ∑ k ∈ Finset.range n, (byte (a + k)).toNat * 256 ^ k

/-- The answer to an access that succeeds, given the bytes of the memory. -/
def answer (byte : Nat → Byte) : Access → Reply
  | write _ | writeSlice _ _ => .done
  | load width addr => .number (numberAt byte addr.toNat width.bytes)
  | loadWord width signed addr =>
    let n := numberAt byte addr.toNat width.bytes
    .number (if signed then wrap (RiscHart.signed width.bits n) else n)
  | readBytes addr count => .bytes ((List.range count).map fun k => byte (addr.toNat + k))
  | readSlice offset count | readArray offset count =>
    .bytes ((List.range count).map fun k => byte (offset + k))

/-- The answer to an access that fails. -/
def refusal (capacity : Nat) : Access → Reply
  | write x => .fault (.outOfBounds x.addr x.data.length capacity)
  | load width addr | loadWord width _ addr => .fault (.outOfBounds addr width.bytes capacity)
  | readBytes addr count => .fault (.outOfBounds addr count capacity)
  | writeSlice _ _ | readSlice _ _ | readArray _ _ => .nothing

/-! One access. -/

/-- The memory after an access that succeeds. -/
def record (m : Memory) (x : Access) : Memory := x.data?.elim m (m.put x.start)

theorem found_loadWord (m : Memory) (f : LoadOp) (addr : Word) :
    found m (fun v : Word => .number v.toNat) (m.loadWord f addr) =
      if addr.toNat + f.width.bytes ≤ m.capacity then
        (m, .number (if f.signed then wrap (signed f.width.bits
            (numberAt m.byte addr.toNat f.width.bytes))
          else numberAt m.byte addr.toNat f.width.bytes))
      else (m, .fault (.outOfBounds addr f.width.bytes m.capacity)) := by
  rw [Memory.loadWord, Memory.load_eq]
  by_cases h : addr.toNat + f.width.bytes ≤ m.capacity
  · rw [if_pos h, if_pos h, Except.map, found, f.toNat_extend, m.toNat_ofNat_number]
    rfl
  · rw [if_neg h, if_neg h]
    rfl

/-- A number that fills a word is its own extension. -/
theorem wrap_signed_number (m : Memory) (a : Nat) :
    wrap (signed Width.word.bits (m.number a Width.word.bytes)) =
      m.number a Width.word.bytes := by
  have hn : (BitVec.ofNat 32 (m.number a 4)).toNat = m.number a 4 := m.toNat_ofNat_number .word a
  have h : wrap (signed 32 (m.number a 4)) = m.number a 4 := by
    rw [← hn, signed_toNat (by omega), wrap_toInt]
  exact h

theorem width_of (width : Width) (signed : Bool) : (LoadOp.of width signed).width = width := by
  cases width <;> cases signed <;> rfl

theorem signed_of {width : Width} (h : width ≠ .word) (signed : Bool) :
    (LoadOp.of width signed).signed = signed := by
  cases width <;> cases signed <;> first | rfl | exact absurd rfl h

theorem perform_loadWord (m : Memory) (width : Width) (signed : Bool) (addr : Word) :
    (loadWord width signed addr).perform m =
      if addr.toNat + width.bytes ≤ m.capacity then (m, answer m.byte (loadWord width signed addr))
      else (m, .fault (.outOfBounds addr width.bytes m.capacity)) := by
  rw [perform, found_loadWord, width_of, answer]
  by_cases hw : width = .word
  · -- There is one load of a word, and its extension changes nothing.
    subst hw
    have hn : numberAt m.byte addr.toNat Width.word.bytes = m.number addr.toNat Width.word.bytes :=
      rfl
    simp only [hn, wrap_signed_number, ite_self]
  · rw [signed_of hw]

theorem toVector?_of_length {n : Nat} {data : List Byte} (h : data.length = n) :
    toVector? n data = some ⟨data.toArray, h⟩ := dif_pos h

theorem perform_eq (m : Memory) (x : Access) :
    x.perform m =
      if x.start + x.size ≤ m.capacity then (record m x, x.answer m.byte)
      else (m, x.refusal m.capacity) := by
  cases x with
  | write x =>
    rw [perform, x.apply_eq_writeBytes, Memory.writeBytes_eq, start, size]
    split <;> rfl
  | writeSlice offset data =>
    rw [perform, Memory.write?, start, size]
    split <;> rfl
  | load width addr =>
    rw [perform, Memory.load_eq, start, size]
    split
    · exact congrArg (fun n => (m, Reply.number n)) (m.toNat_ofNat_number width addr.toNat)
    · rfl
  | loadWord width signed addr => exact perform_loadWord m width signed addr
  | readBytes addr count =>
    rw [perform, m.readBytes_eq, start, size]
    split <;> rfl
  | readSlice offset count =>
    rw [perform, Memory.read?_eq, start, size]
    split <;> rfl
  | readArray offset count =>
    rw [perform, Memory.read?_eq, start, size]
    split
    · rw [Option.bind_some, toVector?_of_length (by rw [List.length_map, List.length_range])]
      rfl
    · rfl

theorem perform_of_update {m : Memory} {x : Access} {a : Nat} {data : List Byte}
    (h : x.update? m.capacity = some (a, data)) :
    a + data.length ≤ m.capacity ∧ (x.perform m).1 = m.put a data := by
  unfold update? at h
  split at h
  · next hle =>
    obtain ⟨data', hdata, heq⟩ := Option.map_eq_some_iff.mp h
    cases heq
    have hlen : data.length = x.size := by cases x <;> cases hdata <;> rfl
    rw [perform_eq, if_pos hle, record, hdata, hlen]
    exact ⟨hle, rfl⟩
  · cases h

theorem perform_of_no_update {m : Memory} {x : Access} (h : x.update? m.capacity = none) :
    (x.perform m).1 = m := by
  rw [perform_eq]
  unfold update? at h
  split at h
  · next hle =>
    rw [if_pos hle, record, Option.map_eq_none_iff.mp h]
    rfl
  · next hle => rw [if_neg hle]

theorem capacity_perform (m : Memory) (x : Access) : (x.perform m).1.capacity = m.capacity := by
  cases h : x.update? m.capacity with
  | none => rw [perform_of_no_update h]
  | some p => rw [(perform_of_update h).2, Memory.capacity_put]

theorem lastByte_cons (a : Nat) (data : List Byte) (entries : List (Nat × List Byte)) (b : Nat) :
    lastByte ((a, data) :: entries) b =
      if a ≤ b ∧ b < a + data.length then data[b - a]?.getD 0 else lastByte entries b := by
  unfold lastByte
  rw [List.find?_cons]
  by_cases h : a ≤ b ∧ b < a + data.length
  · simp only [h, decide_true, and_self, if_true]
  · simp only [h, decide_false, if_false]

/-- One access takes the bytes of the memory along with the journal. -/
theorem byte_perform {m : Memory} {entries : List (Nat × List Byte)}
    (hm : ∀ b, m.byte b = lastByte entries b) (x : Access) (b : Nat) :
    (x.perform m).1.byte b = lastByte ((x.update? m.capacity).toList ++ entries) b := by
  cases h : x.update? m.capacity with
  | none =>
    rw [perform_of_no_update h]
    exact hm b
  | some p =>
    obtain ⟨hle, hput⟩ := perform_of_update h
    rw [hput, m.byte_put hle, hm]
    exact (lastByte_cons p.1 p.2 entries b).symm

/-! Sequences of accesses. -/

theorem after_append (m : Memory) (xs : List Access) (x : Access) :
    after m (xs ++ [x]) = (x.perform (after m xs)).1 := by
  rw [after, List.foldl_append]
  rfl

theorem journal_append (capacity : Nat) (xs : List Access) (x : Access) :
    journal capacity (xs ++ [x]) = (x.update? capacity).toList ++ journal capacity xs := by
  have hone : [x].filterMap (update? capacity) = (x.update? capacity).toList := by
    cases h : x.update? capacity <;> simp [h]
  rw [journal, List.filterMap_append, List.reverse_append, hone]
  cases x.update? capacity <;> rfl

theorem capacity_after (m : Memory) (xs : List Access) : (after m xs).capacity = m.capacity := by
  induction xs using List.reverseRecOn with
  | nil => rfl
  | append_singleton xs x ih => rw [after_append, capacity_perform, ih]

theorem byte_zeros (c b : Nat) : (Memory.zeros c).byte b = 0 := by
  rw [Memory.byte, Memory.zeros, Array.getElem?_replicate]
  split <;> rfl

theorem capacity_zeros (c : Nat) : (Memory.zeros c).capacity = c := Array.size_replicate

theorem byte_after (c : Nat) (xs : List Access) (b : Nat) :
    (after (.zeros c) xs).byte b = lastByte (journal c xs) b := by
  -- The latest access is at the end of the sequence and at the head of the journal.
  induction xs using List.reverseRecOn generalizing b with
  | nil => exact byte_zeros c b
  | append_singleton xs x ih =>
    have hc : (after (.zeros c) xs).capacity = c := by rw [capacity_after, capacity_zeros]
    rw [after_append, byte_perform ih, hc, journal_append]

end Access

/-- The range check as words of 64 bits allow it, where a sum that does not fit is refused. -/
def fitsInWords (capacity offset count : BitVec 64) : Bool :=
  !offset.uaddOverflow count && (offset + count).ule capacity

theorem fitsInWords_eq (capacity offset count : BitVec 64) :
    fitsInWords capacity offset count =
      decide (offset.toNat + count.toNat ≤ capacity.toNat) := by
  have hc := capacity.isLt
  rw [Bool.eq_iff_iff]
  simp only [fitsInWords, BitVec.uaddOverflow, BitVec.ule, Bool.and_eq_true, Bool.not_eq_true',
    decide_eq_false_iff_not, decide_eq_true_eq, BitVec.toNat_add]
  omega

theorem Memory.isSome_read? (m : Memory) (offset count : Nat) :
    (m.read? offset count).isSome = decide (offset + count ≤ m.capacity) := by
  rw [read?]
  by_cases h : offset + count ≤ m.capacity
  · simp [h]
  · simp [h]

theorem Memory.isSome_write? (m : Memory) (offset : Nat) (data : List Byte) :
    (m.write? offset data).isSome = decide (offset + data.length ≤ m.capacity) := by
  rw [write?]
  by_cases h : offset + data.length ≤ m.capacity
  · simp [h]
  · simp [h]

/-- A memory that starts with zeros goes through any accesses as the map of the bytes written
last: the capacity stays, and the next access succeeds or fails, and is answered, as the journal
says. The spans that are in range stay the same when the sum is made in words of 64 bits. -/
theorem memory_refines_last_writer (c : Nat) (xs : List Access) :
    (Access.after (.zeros c) xs).capacity = c ∧
    (∀ b, (Access.after (.zeros c) xs).byte b = Access.lastByte (Access.journal c xs) b) ∧
    (∀ x : Access, x.perform (Access.after (.zeros c) xs) =
      if x.start + x.size ≤ c then
        (Access.after (.zeros c) (xs ++ [x]), x.answer (Access.lastByte (Access.journal c xs)))
      else (Access.after (.zeros c) xs, x.refusal c)) ∧
    (∀ k offset count : BitVec 64,
      ((Access.after (.zeros k.toNat) xs).read? offset.toNat count.toNat).isSome =
          fitsInWords k offset count ∧
      ∀ data : Vector Byte count.toNat,
        ((Access.after (.zeros k.toNat) xs).write? offset.toNat data.toList).isSome =
          fitsInWords k offset count) := by
  have hcap : ∀ c, (Access.after (.zeros c) xs).capacity = c := fun c => by
    rw [Access.capacity_after, Access.capacity_zeros]
  have hbyte : (Access.after (.zeros c) xs).byte = Access.lastByte (Access.journal c xs) :=
    funext fun b => Access.byte_after c xs b
  refine ⟨hcap c, Access.byte_after c xs, ?_, ?_⟩
  · intro x
    rw [Access.after_append, Access.perform_eq, hcap, hbyte]
    by_cases h : x.start + x.size ≤ c
    · rw [if_pos h, if_pos h]
    · rw [if_neg h, if_neg h]
  · intro k offset count
    refine ⟨?_, fun data => ?_⟩
    · rw [Memory.isSome_read?, hcap, fitsInWords_eq]
    · rw [Memory.isSome_write?, hcap, fitsInWords_eq, Vector.length_toList]

end RiscHart
