import Mathlib.Algebra.BigOperators.Intervals
import RiscHart.Proofs.Integers
import RiscHart.Proofs.Patterns
import RiscHart.Registers

/-!
# The instruction set over plain numbers

The meaning of every instruction as a manual would give it: a hart is a handful of numbers, a word
is a number, its fields are quotients and remainders, and immediates are signed numbers. The
operation is found in the table of encodings. Nothing here uses the formats, the shapes or the
instructions that decoding yields, or the operations on words.
-/

namespace RiscHart.Manual

/-- A hart in numbers: what is stored in each register, and in each byte of its memory. -/
structure State where
  x : Nat → Nat
  pc : Nat
  byte : Nat → Nat
  capacity : Nat
  zero : ZeroPolicy

/-! Fields of a word. The immediates of branches and jumps are put together from pieces. -/

def rd (w : Nat) : Nat := bitField w 7 11

def rs1 (w : Nat) : Nat := bitField w 15 19

def rs2 (w : Nat) : Nat := bitField w 20 24

def shamt (w : Nat) : Nat := bitField w 20 24

def immI (w : Nat) : Int := signed 12 (bitField w 20 31)

def immS (w : Nat) : Int := signed 12 (bitField w 25 31 * 2 ^ 5 + bitField w 7 11)

def immB (w : Nat) : Int :=
  signed 13 (bitField w 31 31 * 2 ^ 12 + bitField w 7 7 * 2 ^ 11 + bitField w 25 30 * 2 ^ 5 +
    bitField w 8 11 * 2)

def immJ (w : Nat) : Int :=
  signed 21 (bitField w 31 31 * 2 ^ 20 + bitField w 12 19 * 2 ^ 12 + bitField w 20 20 * 2 ^ 11 +
    bitField w 21 30 * 2)

example : immB 0xFE000EE3 = -4 ∧ immJ 0xFFDFF06F = -4 := by decide

def immU (w : Nat) : Nat := bitField w 12 31 * 4096

/-! Arithmetic on unsigned values of 32 bits. -/

def add (a b : Nat) : Nat := wrap (a + b)

def sub (a b : Nat) : Nat := wrap (a - b)

def sll (a b : Nat) : Nat := wrap (a * 2 ^ (b % 32))

def srl (a b : Nat) : Nat := a / 2 ^ (b % 32)

/-- Division of integers by a positive number rounds down. -/
def sra (a b : Nat) : Nat := wrap (signed 32 a / 2 ^ (b % 32))

def slt (a b : Nat) : Nat := if signed 32 a < signed 32 b then 1 else 0

def sltu (a b : Nat) : Nat := if a < b then 1 else 0

def arith : AluOp → Nat → Nat → Nat
  | .add => add
  | .sub => sub
  | .sll => sll
  | .slt => slt
  | .sltu => sltu
  | .xor => (· ^^^ ·)
  | .srl => srl
  | .sra => sra
  | .or => (· ||| ·)
  | .and => (· &&& ·)

def taken : Condition → Nat → Nat → Prop
  | .eq, a, b => a = b
  | .ne, a, b => a ≠ b
  | .lt, a, b => signed 32 a < signed 32 b
  | .ge, a, b => signed 32 a ≥ signed 32 b
  | .ltu, a, b => a < b
  | .geu, a, b => a ≥ b

instance (cond : Condition) (a b : Nat) : Decidable (taken cond a b) := by
  cases cond <;> unfold taken <;> infer_instance

namespace State

def read (s : State) (n : Nat) : Nat := if n = 0 ∧ s.zero = .hardwired then 0 else s.x n

def write (s : State) (n v : Nat) : State :=
  if n = 0 ∧ s.zero = .hardwired then s else { s with x := Function.update s.x n v }

def goto (s : State) (target : Int) : State := { s with pc := wrap target }

/-- The value for the destination register of an instruction that is followed by the next one. -/
def result (s : State) (w v : Nat) : State := (s.write (rd w) v).goto (s.pc + 4)

/-- A load of `n` bytes, which `extend` makes into a register value. -/
def load (s : State) (w n : Nat) (extend : Nat → Nat) : Option State :=
  let a := wrap (s.read (rs1 w) + immI w)
  if a + n ≤ s.capacity then
    some (s.result w (extend (∑ k ∈ Finset.range n, s.byte (a + k) * 256 ^ k)))
  else none

/-- The bytes from `a` on replaced by the low `n` bytes of `v`. -/
def put (s : State) (a n v : Nat) : State :=
  { s with byte := fun b => if a ≤ b ∧ b < a + n then v / 256 ^ (b - a) % 256 else s.byte b }

/-- A store of the low `n` bytes of a register. -/
def store (s : State) (w n : Nat) : Option State :=
  let a := wrap (s.read (rs1 w) + immS w)
  if a + n ≤ s.capacity then some ((s.put a n (s.read (rs2 w))).goto (s.pc + 4)) else none

/-- What an operation does with the operands that stand in a word. -/
def perform (s : State) (w : Nat) : Op → Option State
  | .alu f => some (s.result w (arith f (s.read (rs1 w)) (s.read (rs2 w))))
  | .imm .add => some (s.result w (add (s.read (rs1 w)) (wrap (immI w))))
  | .imm .slt => some (s.result w (slt (s.read (rs1 w)) (wrap (immI w))))
  | .imm .sltu => some (s.result w (sltu (s.read (rs1 w)) (wrap (immI w))))
  | .imm .xor => some (s.result w (s.read (rs1 w) ^^^ wrap (immI w)))
  | .imm .or => some (s.result w (s.read (rs1 w) ||| wrap (immI w)))
  | .imm .and => some (s.result w (s.read (rs1 w) &&& wrap (immI w)))
  | .shift .sll => some (s.result w (sll (s.read (rs1 w)) (shamt w)))
  | .shift .srl => some (s.result w (srl (s.read (rs1 w)) (shamt w)))
  | .shift .sra => some (s.result w (sra (s.read (rs1 w)) (shamt w)))
  | .load .lb => s.load w 1 fun v => wrap (signed 8 v)
  | .load .lh => s.load w 2 fun v => wrap (signed 16 v)
  | .load .lw => s.load w 4 fun v => v
  | .load .lbu => s.load w 1 fun v => v
  | .load .lhu => s.load w 2 fun v => v
  | .store .byte => s.store w 1
  | .store .half => s.store w 2
  | .store .word => s.store w 4
  | .branch cond =>
    some (s.goto (if taken cond (s.read (rs1 w)) (s.read (rs2 w)) then s.pc + immB w
      else s.pc + 4))
  | .jal => some ((s.write (rd w) (wrap (s.pc + 4))).goto (s.pc + immJ w))
  | .jalr =>
    -- bit 0 of the target is cleared
    some ((s.write (rd w) (wrap (s.pc + 4))).goto (wrap (s.read (rs1 w) + immI w) / 2 * 2 : Nat))
  | .lui => some (s.result w (immU w))
  | .auipc => some (s.result w (wrap (s.pc + immU w)))

/-- A step on a word: the table of encodings gives the operation, if there is one. -/
def step (s : State) (w : Word) : Option State :=
  (Op.all.find? fun o => o.pattern.Matches w).bind (s.perform w.toNat)

/-- The state after one word. A word on which there is no step leaves the state as it is. -/
def next (s : State) (w : Word) : State := (s.step w).getD s

/-- The state after each word when words are given one after another, and whether there was a
step. -/
def outcomes (s : State) : List Word → List (State × Bool)
  | [] => []
  | w :: ws => (s.next w, (s.step w).isSome) :: outcomes (s.next w) ws

/-- The state that a list of words leaves behind. -/
def after (s : State) (ws : List Word) : State := ws.foldl next s

/-- The word at the program counter. -/
def fetch (s : State) : Option Word :=
  if s.pc + 4 ≤ s.capacity then
    some (.ofNat 32 (∑ k ∈ Finset.range 4, s.byte (s.pc + k) * 256 ^ k))
  else none

/-- Up to `limit` steps on fetched words, and whether one of them failed. -/
def run : (limit : Nat) → State → State × Bool
  | 0, s => (s, false)
  | limit + 1, s =>
    match s.fetch.bind s.step with
    | some s' => run limit s'
    | none => (s, true)

end State

end RiscHart.Manual
