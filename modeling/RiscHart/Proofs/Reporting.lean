import RiscHart.Proofs.Effects
import RiscHart.Proofs.FailedRequests

/-!
# Where events are reported

Steps as work that reports while it goes on: a word that is no instruction where it is decoded, an
instruction before it is carried out, and an access that does not fit where the memory refuses it.
What has been reported stays reported when the work breaks off. The events come in the order of the
outcome of a step, and nothing else is reported.
-/

namespace RiscHart

/-- Work on a hart, beside what has been reported so far. -/
abbrev Reporting (α : Type) := EStateM ExecError (Hart × List Event) α

namespace Reporting

def report (e : Event) : Reporting Unit := modify fun s => (s.1, s.2 ++ [e])

/-- Work that reports nothing. -/
def silently {α : Type} (x : Work α) : Reporting α := fun s =>
  match x.run s.1 with
  | .ok a h => .ok a (h, s.2)
  | .error e h => .error e (h, s.2)

/-- Reports an access that does not fit, and breaks off. -/
def refuse {α : Type} (addr : Word) (width : Nat) : Reporting α := do
  let capacity := (← get).1.memory.capacity
  report (.outOfBounds addr width)
  throw (.memory (.outOfBounds addr width capacity))

def readWord (f : LoadOp) (addr : Word) : Reporting Word := do
  match (← get).1.memory.read? addr.toNat f.width.bytes with
  | some bytes => return f.extend (.ofNat f.width.bits (LittleEndian.ofBytes bytes))
  | none => refuse addr f.width.bytes

def writeBytes (addr : Word) (data : List Byte) : Reporting Unit := do
  match (← get).1.memory.write? addr.toNat data with
  | some m => modify fun s => ({ s.1 with memory := m }, s.2)
  | none => refuse addr data.length

/-- Makes the changes of an instruction at `pc` and returns the next program counter. Only accesses
to memory have something to report. -/
def perform (pc : Word) : Instr → Reporting Word
  | .load f rd base offset => do
    let b ← silently (Work.readRegister base)
    let v ← readWord f (b + Imm.short offset)
    silently (Work.writeRegister rd v)
    return Work.sequential pc
  | .store width source base offset => do
    let b ← silently (Work.readRegister base)
    let v ← silently (Work.readRegister source)
    writeBytes (b + Imm.short offset)
      (LittleEndian.toBytes width.bytes (v.setWidth width.bits).toNat)
    return Work.sequential pc
  | i => silently (Work.perform pc i)

def execute (i : Instr) : Reporting Unit := do
  let pc := (← get).1.pc
  report (.executing pc i)
  let next ← perform pc i
  silently (modify fun h => h.jump next)

def step (w : Word) : Reporting Unit := do
  match decode w with
  | .ok i => execute i
  | .error e =>
    report (.undecodable e)
    throw (.decode e)

/-- Words one after another; one that fails does not keep the next from its turn. -/
def steps : List Word → Reporting Unit
  | [] => pure ()
  | w :: ws => do
    try step w catch _ => pure ()
    steps ws

end Reporting

/-- How work ends that comes to an outcome, after a log. -/
def Outcome.ending (o : Outcome) (log : List Event) :
    EStateM.Result ExecError (Hart × List Event) Unit :=
  match o.result with
  | .ok () => .ok () (o.hart, log ++ o.log)
  | .error e => .error e (o.hart, log ++ o.log)

namespace Reporting

theorem run_readWord (h : Hart) (log : List Event) (f : LoadOp) (addr : Word) :
    (readWord f addr).run (h, log) =
      match h.memory.loadWord f addr with
      | .ok v => .ok v (h, log)
      | .error e => .error (.memory e) (h, log ++ [e.event]) := by
  simp only [readWord, EStateM.run_bind, EStateM.run_get, Memory.loadWord, Memory.load,
    Memory.readBytes]
  cases h.memory.read? addr.toNat f.width.bytes <;> rfl

theorem run_writeBytes (h : Hart) (log : List Event) (addr : Word) (data : List Byte) :
    (writeBytes addr data).run (h, log) =
      match h.memory.writeBytes addr data with
      | .ok m => .ok () ({ h with memory := m }, log)
      | .error e => .error (.memory e) (h, log ++ [e.event]) := by
  simp only [writeBytes, EStateM.run_bind, EStateM.run_get, Memory.writeBytes]
  cases h.memory.write? addr.toNat data <;> rfl

/-- An instruction is carried out silently up to the program counter, or its fault is reported. -/
theorem run_perform (h : Hart) (log : List Event) (i : Instr) :
    (perform h.pc i).run (h, log) =
      match i.apply h with
      | .ok h' => .ok h'.pc (h'.jump h.pc, log)
      | .error e => .error (.memory e) (h, log ++ [e.event]) := by
  cases i with
  | load f rd base offset =>
    change (readWord f (h.read base + Imm.short offset) >>= fun v => _).run (h, log) = _
    rw [EStateM.run_bind, run_readWord, Instr.apply]
    cases h.memory.loadWord f (h.read base + Imm.short offset) <;> rfl
  | store width source base offset =>
    change (writeBytes (h.read base + Imm.short offset) _ >>= fun _ => _).run (h, log) = _
    rw [EStateM.run_bind, run_writeBytes, Instr.apply, Memory.storeWord, Memory.store]
    cases h.memory.writeBytes (h.read base + Imm.short offset) _ <;> rfl
  | branch cond rs1 rs2 half =>
    rw [Instr.apply]
    change EStateM.Result.ok (if _ then _ else _) (h, log) = _
    by_cases hc : cond.holds (h.read rs1) (h.read rs2) = true
    · rw [if_pos hc, if_pos hc]
      rfl
    · rw [if_neg hc, if_neg hc]
      rfl
  | _ => rfl

/-- Executing reports the instruction, and then the fault if there is one. -/
theorem run_execute (h : Hart) (log : List Event) (i : Instr) :
    (execute i).run (h, log) = (h.execute i).ending log := by
  change (perform h.pc i >>= fun next => _).run (h, log ++ [.executing h.pc i]) = _
  rw [EStateM.run_bind, run_perform, Hart.execute]
  cases i.apply h with
  | ok h' => rfl
  | error e => simp [Outcome.ending, accessLog]

theorem run_step (h : Hart) (log : List Event) (w : Word) :
    (step w).run (h, log) = (h.step w).ending log := by
  cases hw : decode w with
  | error e =>
    simp only [step, hw, Hart.step]
    rfl
  | ok i =>
    simp only [step, hw, Hart.step]
    exact run_execute h log i

/-- Over many steps the logs of the outcomes are put one behind the other. -/
theorem run_steps (h : Hart) (log : List Event) (ws : List Word) :
    (steps ws).run (h, log) =
      .ok () (h.after ws, log ++ (h.outcomes Hart.step ws).flatMap Outcome.log) := by
  induction ws generalizing h log with
  | nil => simp [steps, Hart.after, Hart.outcomes]
  | cons w ws ih =>
    have hfirst : (try step w catch _ => pure () : Reporting Unit).run (h, log) =
        .ok () ((h.step w).hart, log ++ (h.step w).log) := by
      have hrun := run_step h log w
      rw [Outcome.ending] at hrun
      rw [EStateM.run] at hrun ⊢
      simp only [tryCatch, tryCatchThe, MonadExceptOf.tryCatch, EStateM.tryCatch, hrun]
      cases (h.step w).result <;> rfl
    rw [steps, EStateM.run_bind, hfirst]
    simp only [ih, Hart.outcomes, List.flatMap_cons, List.append_assoc]
    rfl

end Reporting

end RiscHart
