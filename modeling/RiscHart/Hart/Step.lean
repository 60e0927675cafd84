import RiscHart.Hart.Basic

/-!
# Steps

Giving a word to a hart has three parts: the hart afterwards, whether it worked, and what was
reported. A word that is no instruction, and an instruction that faults, leave the hart as it was.
-/

namespace RiscHart

inductive ExecError where
  | decode (e : DecodeError)
  | memory (e : MemoryError)
  | register (e : RegisterError)
  deriving DecidableEq

def ExecError.message : ExecError → String
  | decode e => e.message
  | memory e => e.message
  | register e => e.message

structure Outcome where
  hart : Hart
  result : Except ExecError Unit
  log : List Event

namespace Hart

/-- Executes one instruction. The event for it comes before the event for a fault. -/
def execute (h : Hart) (i : Instr) : Outcome :=
  let r := i.apply h
  { hart := match r with
      | .ok h' => h'
      | .error _ => h
    result := match r with
      | .ok _ => .ok ()
      | .error e => .error (.memory e)
    log := .executing h.pc i :: accessLog r }

/-- Executes what decoding gave, without a report of its own if that was an error. -/
def perform (h : Hart) : Except DecodeError Instr → Outcome
  | .ok i => h.execute i
  | .error e => ⟨h, .error (.decode e), []⟩

/-- Decodes a word and executes it; a word that is no instruction is reported. -/
def step (h : Hart) (w : Word) : Outcome :=
  match decode w with
  | .ok i => h.execute i
  | .error e => ⟨h, .error (.decode e), [.undecodable e]⟩

end Hart

end RiscHart
