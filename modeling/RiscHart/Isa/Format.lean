import RiscHart.Word
import RiscHart.Isa.Code

/-!
# Instruction formats

The six formats of 32-bit instructions, and the compressed encodings, which are 16 bits long and
can be told apart by their two lowest bits. The major opcode selects the format.
-/

namespace RiscHart

inductive Format where
  | r
  | i
  | s
  | b
  | u
  | j
  /-- A 16-bit encoding, which no reader takes apart. -/
  | compressed
  deriving DecidableEq

/-- The bytes of a full-length instruction, and so the distance to the next one. -/
def instructionBytes : Nat := 4

/-- The two bits that tell the length of an instruction. -/
def lengthMask : Word := 3

/-- The value of the length bits in a full-length instruction. -/
def fullLength : Word := 3

def Opcode.format : Opcode → Format
  | .op => .r
  | .opImm | .load | .jalr => .i
  | .store => .s
  | .branch => .b
  | .lui | .auipc => .u
  | .jal => .j

namespace Format

def name : Format → String
  | r => "R-type"
  | i => "I-type"
  | s => "S-type"
  | b => "B-type"
  | u => "U-type"
  | j => "J-type"
  | compressed => "compressed"

/-- The format of a word; a full-length word with an unassigned major opcode has none. -/
def ofWord? (w : Word) : Option Format :=
  if w &&& lengthMask ≠ fullLength then some compressed
  else (Opcode.ofCode? (Field.opcode.get w)).map Opcode.format

def isCompressed (w : Word) : Bool := ofWord? w = some compressed

end Format

end RiscHart
