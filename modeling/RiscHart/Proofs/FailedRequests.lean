import RiscHart.Proofs.StepOutcome

/-!
# Failed requests leave no trace

A hart can be asked to step on a word, to write a register by number, and to store bytes. Here
each request is work made of small changes one after the other: a byte, a register, the program
counter. Work that breaks off leaves behind what it has changed so far. All checks come before the
first change, so the work does what the operations on whole states do, and a request that fails
leaves the hart as it was. It follows that failed requests can be struck from any sequence of
requests.
-/

namespace RiscHart

/-- How work ends whose changes are all made at once, or not at all. -/
def settle {σ ε : Type} (s : σ) : Except ε σ → EStateM.Result ε σ Unit
  | .ok s' => .ok () s'
  | .error e => .error e s

/-! Work on a memory, where the smallest change is that of one byte. -/

abbrev MemoryWork (α : Type) := EStateM MemoryError Memory α

namespace MemoryWork

/-- Breaks off unless the `n` bytes at `addr` lie in the memory. -/
def requireSpan (addr : Word) (n : Nat) : MemoryWork Unit := do
  let m ← get
  unless addr.toNat + n ≤ m.capacity do
    throw (.outOfBounds addr n m.capacity)

def copyBytes (a : Nat) : List Byte → MemoryWork Unit
  | [] => pure ()
  | b :: bs => do
    modify fun m => ⟨m.bytes.setIfInBounds a b⟩
    copyBytes (a + 1) bs

def placeBytes (addr : Word) (data : List Byte) : MemoryWork Unit := do
  requireSpan addr data.length
  copyBytes addr.toNat data

theorem run_requireSpan (m : Memory) (addr : Word) (n : Nat) :
    (requireSpan addr n).run m =
      if addr.toNat + n ≤ m.capacity then .ok () m
      else .error (.outOfBounds addr n m.capacity) m := by
  by_cases h : addr.toNat + n ≤ m.capacity
  · simp [requireSpan, h]
  · simp [requireSpan, h]

theorem run_copyBytes (m : Memory) (a : Nat) (data : List Byte) :
    (copyBytes a data).run m = .ok () (m.put a data) := by
  induction data generalizing m a with
  | nil => rfl
  | cons b bs ih => exact ih ⟨m.bytes.setIfInBounds a b⟩ (a + 1)

/-- Bytes are placed all or none, because the check comes before the first of them. -/
theorem run_placeBytes (m : Memory) (addr : Word) (data : List Byte) :
    (placeBytes addr data).run m = settle m (m.writeBytes addr data) := by
  rw [Memory.writeBytes_eq, placeBytes, EStateM.run_bind, run_requireSpan]
  by_cases h : addr.toNat + data.length ≤ m.capacity
  · rw [if_pos h, if_pos h]
    exact run_copyBytes m addr.toNat data
  · rw [if_neg h, if_neg h]
    rfl

end MemoryWork

/-! Work on a hart. -/

abbrev Work (α : Type) := EStateM ExecError Hart α

namespace Work

def readRegister (r : Reg) : Work Word := do
  return (← get).read r

def writeRegister (r : Reg) (v : Word) : Work Unit :=
  modify fun h => h.write r v

/-- Work on the memory of a hart; bytes changed before it breaks off are changed in the hart. -/
def onMemory (x : MemoryWork Unit) : Work Unit := fun h =>
  match x.run h.memory with
  | .ok () m => .ok () { h with memory := m }
  | .error e m => .error (.memory e) { h with memory := m }

def fetchWord (f : LoadOp) (addr : Word) : Work Word := do
  match (← get).memory.loadWord f addr with
  | .ok v => return v
  | .error e => throw (.memory e)

/-- The address behind an instruction at `pc`. -/
def sequential (pc : Word) : Word := pc + BitVec.ofNat 32 instructionBytes

/-- Makes the changes of an instruction at `pc`, apart from that of the program counter, whose
next value it returns. -/
def perform (pc : Word) : Instr → Work Word
  | .alu f rd rs1 rs2 => do
    let a ← readRegister rs1
    let b ← readRegister rs2
    writeRegister rd (f.eval a b)
    return sequential pc
  | .imm f rd rs1 value => do
    let a ← readRegister rs1
    writeRegister rd (f.alu.eval a (Imm.short value))
    return sequential pc
  | .shift f rd rs1 amount => do
    let a ← readRegister rs1
    writeRegister rd (f.alu.eval a (amount.setWidth 32))
    return sequential pc
  | .load f rd base offset => do
    let b ← readRegister base
    let v ← fetchWord f (b + Imm.short offset)
    writeRegister rd v
    return sequential pc
  | .store width source base offset => do
    let b ← readRegister base
    let v ← readRegister source
    onMemory (.placeBytes (b + Imm.short offset)
      (LittleEndian.toBytes width.bytes (v.setWidth width.bits).toNat))
    return sequential pc
  | .branch cond rs1 rs2 half => do
    let a ← readRegister rs1
    let b ← readRegister rs2
    return if cond.holds a b then pc + Imm.branch half else sequential pc
  | .jal rd half => do
    writeRegister rd (sequential pc)
    return pc + Imm.jump half
  | .jalr rd base offset => do
    let b ← readRegister base
    let target := (b + Imm.short offset) &&& ~~~1
    writeRegister rd (sequential pc)
    return target
  | .lui rd value => do
    writeRegister rd (Imm.upper value)
    return sequential pc
  | .auipc rd value => do
    writeRegister rd (pc + Imm.upper value)
    return sequential pc

def execute (i : Instr) : Work Unit := do
  let pc := (← get).pc
  let next ← perform pc i
  modify fun h => h.jump next

theorem run_fetchWord (h : Hart) (f : LoadOp) (addr : Word) :
    (fetchWord f addr).run h =
      match h.memory.loadWord f addr with
      | .ok v => .ok v h
      | .error e => .error (.memory e) h := by
  simp only [fetchWord, EStateM.run_bind, EStateM.run_get]
  cases h.memory.loadWord f addr <;> rfl

theorem run_onMemory (h : Hart) (addr : Word) (data : List Byte) :
    (onMemory (.placeBytes addr data)).run h =
      settle h (((h.memory.writeBytes addr data).map fun m => { h with memory := m }).mapError
        .memory) := by
  change onMemory (.placeBytes addr data) h = _
  rw [onMemory, MemoryWork.run_placeBytes]
  cases h.memory.writeBytes addr data <;> rfl

/-- Changes made in order add up to what the instruction does to the whole hart. -/
theorem run_execute (h : Hart) (i : Instr) :
    (execute i).run h = settle h ((i.apply h).mapError .memory) := by
  cases i with
  | load f rd base offset =>
    simp only [execute, perform, readRegister, EStateM.run_bind, EStateM.run_get, EStateM.run_pure,
      run_fetchWord, Instr.apply]
    cases h.memory.loadWord f (h.read base + Imm.short offset) <;> rfl
  | store width source base offset =>
    simp only [execute, perform, readRegister, EStateM.run_bind, EStateM.run_get, EStateM.run_pure,
      run_onMemory, Instr.apply, Memory.storeWord, Memory.store]
    cases h.memory.writeBytes (h.read base + Imm.short offset) _ <;> rfl
  | branch cond rs1 rs2 half =>
    rw [Instr.apply]
    change EStateM.Result.ok () (h.jump (if _ then _ else _)) = _
    by_cases hc : cond.holds (h.read rs1) (h.read rs2) = true
    · rw [if_pos hc, if_pos hc]
      rfl
    · rw [if_neg hc, if_neg hc]
      rfl
  | _ => rfl

end Work

/-! Requests and sequences of requests. -/

/-- What a hart can be asked to do. -/
inductive Request where
  | step (w : Word)
  /-- A write to the register of a number, which may select none. -/
  | tryWrite (n : Nat) (v : Word)
  | write (x : MemoryWrite)

namespace Request

def work : Request → Work Unit
  | step w =>
    match decode w with
    | .ok i => .execute i
    | .error e => throw (.decode e)
  | tryWrite n v =>
    match Reg.ofNat? n with
    | some r => .writeRegister r v
    | none => throw (.register (.invalidIndex n))
  | write x => .onMemory (.placeBytes x.addr x.data)

/-- The operation that is asked for, as one change of the whole hart. -/
def apply (h : Hart) : Request → Except ExecError Hart
  | step w => (h.step w).result.map fun _ => (h.step w).hart
  | tryWrite n v =>
    ((h.registers.tryWrite n v).map fun g => { h with registers := g }).mapError .register
  | write x => ((x.apply h.memory).map fun m => { h with memory := m }).mapError .memory

theorem run_work (h : Hart) (q : Request) : q.work.run h = settle h (q.apply h) := by
  cases q with
  | step w =>
    obtain ⟨e, hw, hs⟩ | ⟨i, e, hw, hi, hs⟩ | ⟨i, h', hw, hi, hs⟩ := h.step_cases w
    · simp only [work, hw, apply, hs]
      rfl
    · simp only [work, hw, apply, hs, Work.run_execute, hi]
      rfl
    · simp only [work, hw, apply, hs, Work.run_execute, hi]
      rfl
  | tryWrite n v =>
    rw [work, apply, Registers.tryWrite, Registers.write?]
    cases Reg.ofNat? n <;> rfl
  | write x =>
    rw [work, apply, x.apply_eq_writeBytes]
    exact Work.run_onMemory h x.addr x.data

/-- The hart after a request, whether or not it failed. -/
def after (h : Hart) (q : Request) : Hart :=
  match q.work.run h with
  | .ok () h' => h'
  | .error _ h' => h'

def answer (h : Hart) (q : Request) : Except ExecError Unit :=
  match q.work.run h with
  | .ok () _ => .ok ()
  | .error e _ => .error e

theorem after_step (h : Hart) (w : Word) : (step w).after h = (h.step w).hart := by
  rw [after, run_work, apply]
  obtain ⟨e, -, hs⟩ | ⟨i, e, -, -, hs⟩ | ⟨i, h', -, -, hs⟩ := h.step_cases w
  · rw [hs]
    rfl
  · rw [hs]
    rfl
  · rw [hs]
    rfl

theorem answer_step (h : Hart) (w : Word) : (step w).answer h = (h.step w).result := by
  rw [answer, run_work, apply]
  cases (h.step w).result <;> rfl

theorem after_of_error {h : Hart} {q : Request} {e : ExecError} (hq : q.answer h = .error e) :
    q.after h = h := by
  unfold answer at hq
  unfold after
  rw [run_work] at hq ⊢
  cases ha : q.apply h with
  | ok h' =>
    rw [ha] at hq
    cases hq
  | error e' => rfl

end Request

namespace Hart

/-- The requests of a sequence with their answers; the sequence goes on after a failure. -/
def serve (h : Hart) : List Request → List (Request × Except ExecError Unit)
  | [] => []
  | q :: qs => (q, q.answer h) :: serve (q.after h) qs

/-- The hart at the end of a sequence of requests. -/
def served (h : Hart) (qs : List Request) : Hart := qs.foldl Request.after h

/-- The requests of a sequence without those that fail in it. -/
def successes (h : Hart) (qs : List Request) : List Request :=
  ((h.serve qs).filter fun p => p.2.isOk).map Prod.fst

theorem successes_of_ok {h : Hart} {q : Request} (hq : q.answer h = .ok ()) (qs : List Request) :
    h.successes (q :: qs) = q :: (q.after h).successes qs := by
  rw [successes, serve, hq]
  rfl

theorem successes_of_error {h : Hart} {q : Request} {e : ExecError} (hq : q.answer h = .error e)
    (qs : List Request) : h.successes (q :: qs) = h.successes qs := by
  rw [successes, serve, hq, Request.after_of_error hq]
  rfl

theorem serve_successes (h : Hart) (qs : List Request) :
    h.serve (h.successes qs) = (h.serve qs).filter fun p => p.2.isOk := by
  induction qs generalizing h with
  | nil => rfl
  | cons q qs ih =>
    cases hq : q.answer h with
    | ok u =>
      rw [successes_of_ok hq, serve, serve, hq, ih]
      rfl
    | error e =>
      rw [successes_of_error hq, serve, hq, Request.after_of_error hq, ih]
      rfl

theorem served_successes (h : Hart) (qs : List Request) :
    h.served (h.successes qs) = h.served qs := by
  induction qs generalizing h with
  | nil => rfl
  | cons q qs ih =>
    cases hq : q.answer h with
    | ok u =>
      rw [successes_of_ok hq]
      exact ih (q.after h)
    | error e =>
      rw [successes_of_error hq, ih, served, served, List.foldl_cons, Request.after_of_error hq]

end Hart

/-- The work of a request, made change by change, comes to the operation it asks for, and a step
comes to its outcome. In a sequence of requests that goes on after failures, the failed requests
can be struck: the others then succeed one and all, and the hart at the end is the same. -/
theorem failed_requests_leave_no_trace (h : Hart) (qs : List Request) :
    (∀ q : Request, q.work.run h = settle h (q.apply h)) ∧
    (∀ w, (Request.step w).after h = (h.step w).hart ∧
      (Request.step w).answer h = (h.step w).result) ∧
    (∀ p ∈ h.serve (h.successes qs), p.2 = .ok ()) ∧
    h.served (h.successes qs) = h.served qs := by
  refine ⟨Request.run_work h, fun w => ⟨Request.after_step h w, Request.answer_step h w⟩, ?_,
    h.served_successes qs⟩
  rw [h.serve_successes]
  intro p hp
  obtain ⟨-, hok⟩ := List.mem_filter.mp hp
  cases ha : p.2 with
  | ok u => rfl
  | error e =>
    rw [ha] at hok
    cases hok

end RiscHart
