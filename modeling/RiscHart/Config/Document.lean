import RiscHart.Config
import RiscHart.Json.Document
import RiscHart.Schema

/-!
# Configuration documents

A configuration is written as a document with a section for the memory and one for the registers.
What is left out, a section or the field in it, has its default value. The reader of the document is
a parameter; a program is run with `Json.reader`.
-/

namespace RiscHart

def ZeroPolicy.schema : Schema ZeroPolicy :=
  .oneOf [("hardwired", .hardwired), ("writable", .writable)]

namespace Config

def memorySchema : Schema Nat := .single "size" .size ({} : Config).memorySize

def registerSchema : Schema ZeroPolicy :=
  .single "zero_register" ZeroPolicy.schema ({} : Config).zero

def fields : Schema.Fields (Nat × ZeroPolicy × Unit) :=
  .cons "memory" memorySchema ({} : Config).memorySize
    (.cons "registers" registerSchema ({} : Config).zero .nil)

def schema : Schema Config := .record (fun (memorySize, zero, _) => { memorySize, zero }) fields

/-- The configuration in a document. Its parts are judged only after the whole has been read. -/
def ofText [DocumentReader] (text : String) : Except ConfigError Config :=
  match DocumentReader.read? schema text with
  | none => .error .parse
  | some c => c.validate

end Config

end RiscHart
