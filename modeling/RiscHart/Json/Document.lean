import RiscHart.Json.Reader
import RiscHart.Schema

/-!
# A reader of JSON documents

The reader of documents with which a program is run. A record is an object whose members may come
in any order, among others that are ignored, or an array of the fields in their fixed order. A
field given twice makes the document unreadable.
-/

namespace RiscHart

namespace Json

/-- The fields of a record that has the given field names, by name. Only the keys of the record
itself are decoded, and what stands under any other key is not looked at. -/
def record? (names : List String) : Json → Option (List (String × Json))
  | array items => if items.length ≤ names.length then some (names.zip items) else none
  | object members => do
    let members ← members.mapM fun (key, v) => (decode? key).map (·, v)
    let known := members.filter (·.1 ∈ names)
    if (known.map (·.1)).Nodup then some known else none
  | _ => none

/-- The first number of bytes that does not fit 64 bits. -/
def sizeLimit : Nat := 0x10000000000000000

/-- A number of bytes: a decimal number without sign, fraction and exponent that fits 64 bits. -/
def size? : Json → Option Nat
  | number text =>
    let n := boundedValue sizeLimit text
    if isDigits text ∧ n < sizeLimit then some n else none
  | _ => none

/-- What a name stands for. It is written as it is, or as the only key of an object with `null`
under it. -/
def named? {α : Type} (table : List (String × α)) : Json → Option α
  | string raw => (decode? raw).bind (List.lookup · table)
  | object [(key, null)] => (decode? key).bind (List.lookup · table)
  | _ => none

mutual

def read? {α : Type} : Schema α → Json → Option α
  | .size, v => v.size?
  | .oneOf table, v => v.named? table
  | .record make fields, v => ((v.record? fields.names).bind (readFields? fields)).map make
termination_by structural schema => schema

/-- The fields of a record from the members with their names. -/
def readFields? {α : Type} : Schema.Fields α → List (String × Json) → Option α
  | .nil, _ => some ()
  | .cons name schema default rest, members => do
    let a ← (members.lookup name).elim (some default) (read? schema)
    let b ← readFields? rest members
    some (a, b)
termination_by structural fields => fields

end

instance reader : DocumentReader where
  read? schema text := (ofText? text).bind (read? schema)

end Json

end RiscHart
