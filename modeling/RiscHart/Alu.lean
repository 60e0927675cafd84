import RiscHart.Word
import RiscHart.Isa.Operation

/-!
# Arithmetic, logic and comparison

The value of every arithmetic operation and the truth of every branch condition on two words.
Addition and subtraction wrap, shifts look at the low five bits of the amount alone, and a
comparison gives one or zero. The operations fall into three units; a unit answers zero to an
operation of another one.
-/

namespace RiscHart

/-- The bits of a shift amount that count. -/
def shamtMask : Word := 31

namespace AluOp

def eval (a b : Word) : AluOp → Word
  | add => a + b
  | sub => a - b
  | sll => a <<< (b &&& shamtMask)
  | slt => if a.slt b then 1 else 0
  | sltu => if a.ult b then 1 else 0
  | xor => a ^^^ b
  | srl => a >>> (b &&& shamtMask)
  | sra => a.sshiftRight (b &&& shamtMask).toNat
  | or => a ||| b
  | and => a &&& b

end AluOp

inductive AluUnit where
  | arithmetic
  | logic
  | shifts
  deriving DecidableEq

def AluOp.unit : AluOp → AluUnit
  | add | sub => .arithmetic
  | slt | sltu | xor | or | and => .logic
  | sll | srl | sra => .shifts

def AluUnit.eval (u : AluUnit) (f : AluOp) (a b : Word) : Word :=
  if f.unit = u then f.eval a b else 0

/-- Whether a branch with this condition is taken. -/
def Condition.holds (a b : Word) : Condition → Bool
  | eq => a == b
  | ne => a != b
  | lt => a.slt b
  | ge => b.sle a
  | ltu => a.ult b
  | geu => b.ule a

end RiscHart
