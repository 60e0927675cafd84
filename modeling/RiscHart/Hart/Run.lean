import RiscHart.Hart.Step

/-!
# Runs

A run fetches the word at the program counter and gives it to the hart, over and over, until a
fetch or a step fails or the allowed number of steps is used up. A run that has stopped stays as it
is, however many steps are still allowed, so its cost is that of the steps it makes.
-/

namespace RiscHart

/-- Why a run cannot go on. -/
inductive Stop where
  | fetch (e : MemoryError)
  | step (e : ExecError)
  deriving DecidableEq

def Outcome.stop? (o : Outcome) : Option Stop :=
  match o.result with
  | .ok () => none
  | .error e => some (.step e)

/-- A run so far; `visited` holds the program counters before its steps. -/
structure Run where
  hart : Hart
  visited : Array Word := #[]
  log : Array Event := #[]
  stop : Option Stop := none

namespace Run

/-- One more fetch and step. -/
def extend (exec : Hart → Word → Outcome) : Run → Run
  | ⟨h, visited, log, _⟩ =>
    match h.memory.load .word h.pc with
    | .error e => ⟨h, visited.push h.pc, log.push e.event, some (.fetch e)⟩
    | .ok w =>
      let o := exec h w
      ⟨o.hart, visited.push h.pc, log ++ o.log, o.stop?⟩

/-- At most `limit` more fetches and steps, as long as the run has not stopped. -/
def proceed (exec : Hart → Word → Outcome) : (limit : Nat) → Run → Run
  | 0, r => r
  | limit + 1, r => if r.stop.isSome then r else proceed exec limit (r.extend exec)

theorem proceed_of_stop (exec : Hart → Word → Outcome) (limit : Nat) {r : Run}
    (h : r.stop.isSome) : r.proceed exec limit = r := by
  cases limit with
  | zero => rfl
  | succ limit => simp [proceed, h]

end Run

/-- A run of at most `limit` steps, each made by `exec`. -/
def Hart.run (exec : Hart → Word → Outcome) (limit : Nat) (h : Hart) : Run :=
  Run.proceed exec limit { hart := h }

end RiscHart
