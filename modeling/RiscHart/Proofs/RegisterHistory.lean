import RiscHart.Proofs.Operands

/-!
# Registers as a map of the values written last

However a register file is used, each register holds the value written to it last, and zero if
there was none; a hardwired `x0` is never written. The ledger of a history has the writes that took
effect, and the register file can be rebuilt from it at any time, the slot of `x0` included. An
instruction is one more write, to its destination. What is refused changes nothing.
-/

namespace RiscHart

/-! Access by number, with the policy for `x0` as a condition of reading and one of writing. -/

namespace Registers

def readNumber? (g : Registers) (n : Nat) : Option Word :=
  if n = 0 ∧ g.zero = .hardwired then some 0 else g.slots[n]?

def writeNumber? (g : Registers) (n : Nat) (v : Word) : Option Registers :=
  if n ≠ 0 ∨ g.zero = .writable then
    if h : n < Reg.count then some { g with slots := g.slots.set n v } else none
  else some g

end Registers

namespace Registers

theorem pinned_ofNat_iff (g : Registers) {n : Nat} (hn : n < Reg.count) :
    g.pinned (.ofNat 5 n) = true ↔ n = 0 ∧ g.zero = .hardwired := by
  have hzero : BitVec.ofNat 5 n = Reg.zero ↔ n = 0 := by
    rw [← BitVec.toNat_inj, Reg.toNat_ofNat hn]
    rfl
  rw [pinned, decide_eq_true_iff, hzero]

theorem read?_eq_readNumber? (g : Registers) (n : Nat) : g.read? n = g.readNumber? n := by
  rw [read?, readNumber?]
  by_cases hn : n < Reg.count
  · have hslot : g.slots[(BitVec.ofNat 5 n).toFin] = g.slots[n] := by
      simp only [Fin.getElem_fin, BitVec.val_toFin, Reg.toNat_ofNat hn]
    rw [Reg.ofNat?_of_lt hn, Option.map_some, read, hslot, Vector.getElem?_eq_getElem hn]
    by_cases hp : n = 0 ∧ g.zero = .hardwired
    · rw [if_pos ((g.pinned_ofNat_iff hn).mpr hp), if_pos hp]
    · rw [if_neg (fun h => hp ((g.pinned_ofNat_iff hn).mp h)), if_neg hp]
  · have hle := Nat.le_of_not_lt hn
    have hpos : n ≠ 0 := fun h => hn (h ▸ Nat.zero_lt_succ 31)
    rw [Reg.ofNat?_of_le hle, if_neg (fun h => hpos h.1), Vector.getElem?_eq_none hle]
    rfl

theorem write?_eq_writeNumber? (g : Registers) (n : Nat) (v : Word) :
    g.write? n v = g.writeNumber? n v := by
  have hpolicy : (n ≠ 0 ∨ g.zero = .writable) ↔ ¬ (n = 0 ∧ g.zero = .hardwired) := by
    cases g.zero <;> simp
  rw [write?, writeNumber?]
  by_cases hn : n < Reg.count
  · rw [Reg.ofNat?_of_lt hn, Option.map_some]
    by_cases hp : n = 0 ∧ g.zero = .hardwired
    · rw [write_of_pinned ((g.pinned_ofNat_iff hn).mpr hp), if_neg (fun h => hpolicy.mp h hp)]
    · have hfree : g.pinned (.ofNat 5 n) = false :=
        Bool.eq_false_iff.mpr fun h => hp ((g.pinned_ofNat_iff hn).mp h)
      have hslots : g.slots.set (BitVec.ofNat 5 n).toFin v = g.slots.set n v := by
        congr 1
        exact Reg.toNat_ofNat hn
      rw [write_of_not_pinned hfree, hslots, if_pos (hpolicy.mpr hp), dif_pos hn]
  · have hpos : n ≠ 0 := fun h => hn (h ▸ Nat.zero_lt_succ 31)
    rw [Reg.ofNat?_of_le (Nat.le_of_not_lt hn), if_pos (.inl hpos), dif_neg hn]
    rfl

end Registers

/-- Two register files of the same policy are the same if their slots hold the same. -/
theorem Registers.ext_slots {g g' : Registers} (hzero : g.zero = g'.zero)
    (hslots : ∀ r : Reg, g.slots[r.toFin] = g'.slots[r.toFin]) : g = g' := by
  have heq : g.slots = g'.slots := by
    apply Vector.ext
    intro n hn
    have hr := hslots (.ofNat 5 n)
    simpa only [Fin.getElem_fin, BitVec.val_toFin, Reg.toNat_ofNat hn] using hr
  cases g
  cases g'
  cases hzero
  cases heq
  rfl

/-- A register file with the program counter beside it. -/
structure RegisterFile where
  registers : Registers
  pc : Word
  deriving DecidableEq

/-- What can be done with a register file. -/
inductive Use where
  /-- A write to the register of a number, which is not checked. -/
  | write (n : Nat) (v : Word)
  | tryWrite (n : Nat) (v : Word)
  | writePc (v : Word)
  /-- An instruction, executed on some memory. -/
  | execute (m : Memory) (i : Instr)

/-- How a use ends. -/
inductive UseEnd where
  | done
  | failed (e : ExecError)
  /-- The use was cut short, with nothing to return. -/
  | aborted
  deriving DecidableEq

namespace RegisterFile

def clear (zero : ZeroPolicy) : RegisterFile := ⟨.clear zero, 0⟩

/-- The hart that a register file and a memory make up. -/
def hart (f : RegisterFile) (m : Memory) : Hart := ⟨f.registers, f.pc, m⟩

def perform (f : RegisterFile) : Use → RegisterFile × UseEnd
  | .write n v =>
    match f.registers.write? n v with
    | some g => (⟨g, f.pc⟩, .done)
    | none => (f, .aborted)
  | .tryWrite n v =>
    match f.registers.tryWrite n v with
    | .ok g => (⟨g, f.pc⟩, .done)
    | .error e => (f, .failed (.register e))
  | .writePc v => (⟨f.registers, v⟩, .done)
  | .execute m i =>
    let o := (f.hart m).execute i
    (⟨o.hart.registers, o.hart.pc⟩,
      match o.result with
      | .ok () => .done
      | .error e => .failed e)

/-- The register file after a history, whatever failed in it. -/
def after (f : RegisterFile) (us : List Use) : RegisterFile :=
  us.foldl (fun f u => (f.perform u).1) f

theorem perform_of_lt (f : RegisterFile) {n : Nat} (hn : n < Reg.count) (v : Word) :
    (f.perform (.write n v)).2 = .done ∧ (f.perform (.tryWrite n v)).2 = .done := by
  rw [perform, perform, Registers.tryWrite, Registers.write?, Reg.ofNat?_of_lt hn]
  exact ⟨rfl, rfl⟩

theorem perform_of_le (f : RegisterFile) {n : Nat} (hn : Reg.count ≤ n) (v : Word) :
    f.perform (.write n v) = (f, .aborted) ∧
      f.perform (.tryWrite n v) = (f, .failed (.register (.invalidIndex n))) := by
  rw [perform, perform, Registers.tryWrite, Registers.write?, Reg.ofNat?_of_le hn]
  exact ⟨rfl, rfl⟩

theorem perform_execute (f : RegisterFile) (m : Memory) (i : Instr) :
    (∃ e, i.effect (f.hart m) = .error e ∧
      f.perform (.execute m i) = (f, .failed (.memory e))) ∨
    (∃ e, i.effect (f.hart m) = .ok e ∧ f.perform (.execute m i) =
      (⟨((f.hart m).commit e).registers, e.next⟩, .done)) := by
  have happly := i.apply_eq_map_commit (f.hart m)
  rw [perform]
  cases he : i.effect (f.hart m) with
  | error e =>
    rw [he] at happly
    rw [Hart.execute_of_error happly]
    exact .inl ⟨e, rfl, rfl⟩
  | ok e =>
    rw [he] at happly
    rw [Hart.execute_of_ok happly]
    exact .inr ⟨e, rfl, rfl⟩

/-- What does not get done changes nothing. -/
theorem perform_of_ne_done {f : RegisterFile} {u : Use} (hu : (f.perform u).2 ≠ .done) :
    (f.perform u).1 = f := by
  cases u with
  | write n v =>
    rcases Nat.lt_or_ge n Reg.count with hn | hn
    · exact absurd (f.perform_of_lt hn v).1 hu
    · rw [(f.perform_of_le hn v).1]
  | tryWrite n v =>
    rcases Nat.lt_or_ge n Reg.count with hn | hn
    · exact absurd (f.perform_of_lt hn v).2 hu
    · rw [(f.perform_of_le hn v).2]
  | writePc v => exact absurd rfl hu
  | execute m i =>
    rcases f.perform_execute m i with ⟨e, -, hf⟩ | ⟨e, -, hf⟩
    · rw [hf]
    · exact absurd (congrArg Prod.snd hf) hu

theorem pc_perform {f : RegisterFile} {u : Use} (hu : (f.perform u).1.pc ≠ f.pc) :
    (∃ v, u = .writePc v) ∨ ∃ m i, u = .execute m i ∧ (f.perform u).2 = .done := by
  cases u with
  | write n v =>
    refine absurd ?_ hu
    rw [perform]
    split <;> rfl
  | tryWrite n v =>
    refine absurd ?_ hu
    rw [perform]
    split <;> rfl
  | writePc v => exact .inl ⟨v, rfl⟩
  | execute m i =>
    by_contra hnot
    refine hu (congrArg RegisterFile.pc (perform_of_ne_done fun hdone => ?_))
    exact hnot (.inr ⟨m, i, rfl, hdone⟩)

/-- An instruction writes to its destination alone. -/
theorem slot_perform_execute (f : RegisterFile) (m : Memory) {i : Instr} {r : Reg}
    (hr : i.shape.rd? ≠ some r) :
    (f.perform (.execute m i)).1.registers.slots[r.toFin] = f.registers.slots[r.toFin] := by
  rcases f.perform_execute m i with ⟨e, -, hf⟩ | ⟨e, he, hf⟩
  · rw [hf]
  · rw [hf, Hart.slot_commit]
    cases hreg : e.register with
    | none => rfl
    | some p =>
      have hrd := (Instr.kindOf_of_effect he).rd?_eq hreg
      have hne : r ≠ p.1 := fun h => hr (hrd.trans (congrArg some h.symm))
      exact if_neg fun hn => hne hn.1

end RegisterFile

/-! The ledger of a history. -/

/-- The value that the latest write to a register gives it. -/
def lastValue (writes : List (Reg × Word)) (r : Reg) : Word :=
  match writes.find? (·.1 = r) with
  | some p => p.2
  | none => 0

/-- The writes that took effect, the latest first, and the program counter. -/
structure Ledger where
  writes : List (Reg × Word) := []
  pc : Word := 0

/-- The write of a value to a register, if the policy lets it take effect. -/
def effective (zero : ZeroPolicy) (r : Reg) (v : Word) : List (Reg × Word) :=
  if r = Reg.zero ∧ zero = .hardwired then [] else [(r, v)]

namespace Ledger

/-- The register file that holds the last values. -/
def file (zero : ZeroPolicy) (l : Ledger) : RegisterFile where
  registers := ⟨zero, .ofFn fun k => lastValue l.writes (.ofNat 5 k)⟩
  pc := l.pc

def record (zero : ZeroPolicy) (l : Ledger) : Use → Ledger
  | .write n v | .tryWrite n v =>
    match Reg.ofNat? n with
    | some r => { l with writes := effective zero r v ++ l.writes }
    | none => l
  | .writePc v => { l with pc := v }
  | .execute m i =>
    match i.effect ((l.file zero).hart m) with
    | .ok e =>
      { writes := (e.register.elim [] fun p => effective zero p.1 p.2) ++ l.writes, pc := e.next }
    | .error _ => l

def after (zero : ZeroPolicy) (us : List Use) : Ledger := us.foldl (record zero) {}

end Ledger

theorem lastValue_cons (r : Reg) (v : Word) (writes : List (Reg × Word)) (s : Reg) :
    lastValue ((r, v) :: writes) s = if s = r then v else lastValue writes s := by
  by_cases h : s = r
  · simp [lastValue, h]
  · simp [lastValue, h, Ne.symm h]

theorem lastValue_of_ne {writes : List (Reg × Word)} {r : Reg} (h : ∀ p ∈ writes, p.1 ≠ r) :
    lastValue writes r = 0 := by
  have hnone : writes.find? (·.1 = r) = none :=
    List.find?_eq_none.mpr fun p hp hr => h p hp (of_decide_eq_true hr)
  rw [lastValue, hnone]

namespace Ledger

theorem slot_file (zero : ZeroPolicy) (l : Ledger) (r : Reg) :
    (l.file zero).registers.slots[r.toFin] = lastValue l.writes r := by
  simp only [file, Fin.getElem_fin, Vector.getElem_ofFn, BitVec.val_toFin, BitVec.ofNat_toNat,
    BitVec.setWidth_eq]

theorem file_default (zero : ZeroPolicy) : ({} : Ledger).file zero = .clear zero := by
  have hregisters : (({} : Ledger).file zero).registers = .clear zero := by
    refine Registers.ext_slots rfl fun r => ?_
    rw [slot_file, Registers.clear, Fin.getElem_fin, Vector.getElem_replicate]
    rfl
  exact congrArg (RegisterFile.mk · 0) hregisters

/-- A write to a register enters the ledger, unless the register is held at zero. -/
theorem write_file (zero : ZeroPolicy) (l : Ledger) (r : Reg) (v : Word) :
    (l.file zero).registers.write r v =
      (({ l with writes := effective zero r v ++ l.writes } : Ledger).file zero).registers := by
  refine Registers.ext_slots (Registers.zero_write ..) fun s => ?_
  rw [Registers.slot_write, slot_file, slot_file, effective]
  by_cases hp : r = Reg.zero ∧ zero = .hardwired
  · have hpinned : (l.file zero).registers.pinned r = true := decide_eq_true hp
    rw [if_pos hp, if_neg (fun hn => Bool.false_ne_true (hn.2.symm.trans hpinned))]
    rfl
  · have hfree : (l.file zero).registers.pinned r = false := decide_eq_false hp
    rw [if_neg hp, List.singleton_append, lastValue_cons]
    simp only [hfree, and_true]

/-- One use of the register file that a ledger gives is one record in the ledger. -/
theorem perform_file (zero : ZeroPolicy) (l : Ledger) (u : Use) :
    ((l.file zero).perform u).1 = (l.record zero u).file zero := by
  cases u with
  | write n v =>
    rw [RegisterFile.perform, Registers.write?, record]
    cases Reg.ofNat? n with
    | none => rfl
    | some r => exact congrArg (RegisterFile.mk · l.pc) (write_file zero l r v)
  | tryWrite n v =>
    rw [RegisterFile.perform, Registers.tryWrite, Registers.write?, record]
    cases Reg.ofNat? n with
    | none => rfl
    | some r => exact congrArg (RegisterFile.mk · l.pc) (write_file zero l r v)
  | writePc v => rfl
  | execute m i =>
    rw [record]
    rcases (l.file zero).perform_execute m i with ⟨e, he, hf⟩ | ⟨e, he, hf⟩
    · rw [hf, he]
    · rw [hf, he]
      obtain ⟨register, stored, next⟩ := e
      cases register with
      | none => rfl
      | some p => exact congrArg (RegisterFile.mk · next) (write_file zero l p.1 p.2)

theorem after_file (zero : ZeroPolicy) (l : Ledger) (us : List Use) :
    (l.file zero).after us = (us.foldl (record zero) l).file zero := by
  induction us generalizing l with
  | nil => rfl
  | cons u us ih =>
    rw [RegisterFile.after, List.foldl_cons, perform_file]
    exact ih (l.record zero u)

/-- Whether the policy allows all writes of a ledger to take effect. -/
def Allowed (zero : ZeroPolicy) (l : Ledger) : Prop :=
  ∀ p ∈ l.writes, p.1 = Reg.zero → zero = .writable

theorem allowed_effective {zero : ZeroPolicy} {l : Ledger} (hl : l.Allowed zero) (r : Reg)
    (v : Word) (pc : Word) : (Ledger.mk (effective zero r v ++ l.writes) pc).Allowed zero := by
  intro p hp hz
  rcases List.mem_append.mp hp with hnew | hold
  · unfold effective at hnew
    split at hnew
    · cases hnew
    · next hfree =>
      obtain rfl := List.mem_singleton.mp hnew
      cases zero with
      | hardwired => exact absurd ⟨hz, rfl⟩ hfree
      | writable => rfl
  · exact hl p hold hz

theorem allowed_record {zero : ZeroPolicy} {l : Ledger} (hl : l.Allowed zero) (u : Use) :
    (l.record zero u).Allowed zero := by
  cases u with
  | write n v | tryWrite n v =>
    rw [record]
    cases Reg.ofNat? n with
    | none => exact hl
    | some r => exact allowed_effective hl r v l.pc
  | writePc v => exact hl
  | execute m i =>
    rw [record]
    cases i.effect ((l.file zero).hart m) with
    | error e => exact hl
    | ok e =>
      obtain ⟨register, stored, next⟩ := e
      cases register with
      | none => exact hl
      | some p => exact allowed_effective hl p.1 p.2 next

theorem allowed_after (zero : ZeroPolicy) (us : List Use) : (after zero us).Allowed zero := by
  have hfold : ∀ l : Ledger, l.Allowed zero → (us.foldl (record zero) l).Allowed zero := by
    induction us with
    | nil => exact fun l hl => hl
    | cons u us ih => exact fun l hl => ih _ (allowed_record hl u)
  exact hfold {} nofun

theorem lastValue_zero {l : Ledger} (hl : l.Allowed .hardwired) :
    lastValue l.writes Reg.zero = 0 := by
  refine lastValue_of_ne fun p hp hz => ?_
  cases hl p hp hz

theorem read_file {zero : ZeroPolicy} {l : Ledger} (hl : l.Allowed zero) (r : Reg) :
    (l.file zero).registers.read r = lastValue l.writes r := by
  rw [Registers.read, slot_file]
  by_cases hp : r = Reg.zero ∧ zero = .hardwired
  · have hpinned : (l.file zero).registers.pinned r = true := decide_eq_true hp
    obtain ⟨rfl, rfl⟩ := hp
    rw [if_pos hpinned, lastValue_zero hl]
  · have hfree : (l.file zero).registers.pinned r = false := decide_eq_false hp
    rw [hfree, if_neg Bool.false_ne_true]

end Ledger

/-- After any history of a register file that starts with zeros, every register and its slot hold
the value of the last write to it that took effect, as the ledger of the history has them. Reading
and writing by number are one condition on `x0` each. A number that selects no register is refused,
what is not done changes nothing, an instruction writes to its destination alone, the program
counter moves by writes to it and by instructions that are done, and the policy stays. -/
theorem registers_refine_last_writer (zero : ZeroPolicy) (us : List Use) :
    let f := (RegisterFile.clear zero).after us
    let l := Ledger.after zero us
    (∀ (g : Registers) (n : Nat) (v : Word),
      g.read? n = g.readNumber? n ∧ g.write? n v = g.writeNumber? n v) ∧
    f.registers.zero = zero ∧ f.pc = l.pc ∧
    (∀ r : Reg, f.registers.read r = lastValue l.writes r ∧
      f.registers.slots[r.toFin] = lastValue l.writes r) ∧
    (zero = .hardwired → (∀ p ∈ l.writes, p.1 ≠ Reg.zero) ∧
      f.registers.slots[Reg.zero.toFin] = 0 ∧ f.registers.read Reg.zero = 0) ∧
    (∀ n < Reg.count, f.registers.read? n = some (lastValue l.writes (.ofNat 5 n)) ∧
      f.registers.tryRead n = .ok (lastValue l.writes (.ofNat 5 n)) ∧
      ∀ v, (f.perform (.write n v)).2 = .done ∧ (f.perform (.tryWrite n v)).2 = .done) ∧
    (∀ n, Reg.count ≤ n → f.registers.read? n = none ∧
      f.registers.tryRead n = .error (.invalidIndex n) ∧
      ∀ v, f.perform (.write n v) = (f, .aborted) ∧
        f.perform (.tryWrite n v) = (f, .failed (.register (.invalidIndex n)))) ∧
    (∀ u, (f.perform u).2 ≠ .done → (f.perform u).1 = f) ∧
    (∀ m i r, i.shape.rd? ≠ some r →
      (f.perform (.execute m i)).1.registers.slots[r.toFin] = f.registers.slots[r.toFin]) ∧
    (∀ u, (f.perform u).1.pc ≠ f.pc →
      (∃ v, u = .writePc v) ∨ ∃ m i, u = .execute m i ∧ (f.perform u).2 = .done) := by
  intro f l
  have hf : f = l.file zero := by
    have hstart := Ledger.after_file zero {} us
    rw [Ledger.file_default] at hstart
    exact hstart
  have hl : l.Allowed zero := Ledger.allowed_after zero us
  have hread : ∀ r, f.registers.read r = lastValue l.writes r := fun r => by
    rw [hf, Ledger.read_file hl]
  have hslot : ∀ r : Reg, f.registers.slots[r.toFin] = lastValue l.writes r := fun r => by
    rw [hf, Ledger.slot_file]
  refine ⟨fun g n v => ⟨g.read?_eq_readNumber? n, g.write?_eq_writeNumber? n v⟩, by rw [hf]; rfl,
    by rw [hf]; rfl, fun r => ⟨hread r, hslot r⟩, ?_, ?_, ?_,
    fun u => RegisterFile.perform_of_ne_done, fun m i r => f.slot_perform_execute m,
    fun u => RegisterFile.pc_perform⟩
  · rintro rfl
    have hlast := Ledger.lastValue_zero hl
    refine ⟨?_, (hslot Reg.zero).trans hlast, (hread Reg.zero).trans hlast⟩
    intro p hp hz
    cases hl p hp hz
  · intro n hn
    have hvalue : f.registers.read? n = some (lastValue l.writes (.ofNat 5 n)) := by
      rw [Registers.read?, Reg.ofNat?_of_lt hn, Option.map_some, hread]
    refine ⟨hvalue, ?_, f.perform_of_lt hn⟩
    rw [Registers.tryRead, hvalue]
  · intro n hn
    have hnone : f.registers.read? n = none := by
      rw [Registers.read?, Reg.ofNat?_of_le hn, Option.map_none]
    refine ⟨hnone, ?_, f.perform_of_le hn⟩
    rw [Registers.tryRead, hnone]

end RiscHart
