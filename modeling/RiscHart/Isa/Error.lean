import RiscHart.Word
import RiscHart.Numeral

/-!
# Why a word is no instruction

The three reasons, in the order in which they are looked for, and the message for each.
-/

namespace RiscHart

inductive DecodeError where
  /-- The word is a compressed encoding. -/
  | notImplemented (word : Word)
  /-- The major opcode is unassigned. -/
  | unknownOpcode (word opcode : Word)
  /-- The major opcode is known, but the minor codes are unassigned. -/
  | illegal (word : Word)
  deriving DecidableEq

def DecodeError.message : DecodeError → String
  | notImplemented word =>
    "decoding of instruction " ++ Numeral.word word ++ " is not implemented"
  | unknownOpcode word opcode =>
    "unknown opcode " ++ Numeral.binaryPadded 7 opcode.toNat ++ " in instruction " ++
      Numeral.word word
  | illegal word => "illegal instruction " ++ Numeral.word word

end RiscHart
