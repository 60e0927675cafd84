import RiscHart.Isa.Assembly
import RiscHart.Memory.Basic
import RiscHart.Registers

/-!
# Events

What a hart reports while it works. An `Event` says what happened; `Event.entry` is the log entry
it becomes: a level, a message, and named values beside it.
-/

namespace RiscHart

inductive Level where
  | debug
  | trace
  deriving DecidableEq

def Level.name : Level → String
  | debug => "DEBUG"
  | trace => "TRACE"

/-- A value beside a message: a plain number or a text. -/
inductive EntryValue where
  | number (n : Nat)
  | text (s : String)
  deriving DecidableEq

structure Entry where
  level : Level
  message : String
  values : List (String × EntryValue) := []
  deriving DecidableEq

inductive Event where
  /-- A hart came into being with so many bytes of memory. -/
  | created (capacity : Nat) (zero : ZeroPolicy)
  /-- The instruction at `pc` is about to take effect. -/
  | executing (pc : Word) (i : Instr)
  /-- An access to `width` bytes at `addr` did not fit into the memory. -/
  | outOfBounds (addr : Word) (width : Nat)
  | undecodable (e : DecodeError)
  /-- The program counter, as shown at the head of a register dump. -/
  | programCounter (pc : Word)
  /-- Two neighbouring registers and their values, as one line of a register dump. -/
  | registerPair (first second : Reg) (a b : Word)
  deriving DecidableEq

namespace Event

/-- A register and its value; the number is followed by blanks up to two places. -/
def registerText (r : Reg) (v : Word) : String :=
  "x" ++ String.ofList ((Nat.toDigits 10 r.toNat).rightpad 2 ' ') ++ "=" ++ Numeral.word v

def entry : Event → Entry
  | created capacity zero =>
    ⟨.debug, "hart created", [("memory", .number capacity), ("zero_register", .text zero.name)]⟩
  | executing pc i => ⟨.trace, i.text, [("pc", .text (Numeral.word pc))]⟩
  | outOfBounds addr width =>
    ⟨.debug, "memory access out of bounds",
      [("addr", .text (Numeral.word addr)), ("width", .number width)]⟩
  | undecodable e => ⟨.debug, "decode failed", [("e", .text e.message)]⟩
  | programCounter pc => ⟨.trace, "pc =" ++ Numeral.word pc, []⟩
  | registerPair first second a b =>
    ⟨.trace, registerText first a ++ " " ++ registerText second b, []⟩

end Event

def MemoryError.event : MemoryError → Event
  | outOfBounds addr width _ => .outOfBounds addr width

/-- What a memory access reports: its failure, or nothing. -/
def accessLog {α : Type} : Except MemoryError α → List Event
  | .ok _ => []
  | .error e => [e.event]

/-- A register dump, two registers to the line. -/
def Registers.dump (g : Registers) : List Event :=
  (List.range 16).map fun k =>
    let first := BitVec.ofNat 5 (2 * k)
    let second := BitVec.ofNat 5 (2 * k + 1)
    .registerPair first second (g.read first) (g.read second)

end RiscHart
