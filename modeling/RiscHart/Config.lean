import RiscHart.Registers

/-!
# Configuration

How much memory a hart has and how its register `x0` behaves. A memory must not be empty.
-/

namespace RiscHart

structure Config where
  memorySize : Nat := 65536
  zero : ZeroPolicy := .hardwired
  deriving DecidableEq

inductive ConfigError where
  | zeroSizedMemory
  /-- The text is no configuration. -/
  | parse
  deriving DecidableEq

/-- The message of an error; a text that cannot be read at all gives none. -/
def ConfigError.message? : ConfigError → Option String
  | zeroSizedMemory => some "memory size must be non-zero"
  | parse => none

def Config.validate (c : Config) : Except ConfigError Config :=
  if c.memorySize = 0 then .error .zeroSizedMemory else .ok c

end RiscHart
