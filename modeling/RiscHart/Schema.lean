/-!
# Schemas of documents

A schema says what a document holds: a size, one of a few names, or a record, whose fields have
names, schemas of their own, and values that stand for them where they are left out. Schemas are
data. How a document is read by a schema is not settled here: a program is given a `DocumentReader`
with the documents.
-/

namespace RiscHart

mutual

/-- The schema of documents that are read as elements of a type. -/
inductive Schema : Type → Type 1
  /-- A number of bytes. -/
  | size : Schema Nat
  /-- One of several names, with what each of them stands for. -/
  | oneOf {α : Type} (table : List (String × α)) : Schema α
  | record {α β : Type} (make : α → β) (fields : Schema.Fields α) : Schema β

inductive Schema.Fields : Type → Type 1
  | nil : Schema.Fields Unit
  | cons {α β : Type} (name : String) (schema : Schema α) (default : α)
      (rest : Schema.Fields β) : Schema.Fields (α × β)

end

namespace Schema

def Fields.names {α : Type} : Fields α → List String
  | .nil => []
  | .cons name _ _ rest => name :: rest.names

/-- A record with one field, which is read as the value of that field. -/
def single {α : Type} (name : String) (schema : Schema α) (default : α) : Schema α :=
  .record Prod.fst (.cons name schema default .nil)

end Schema

/-- A reader of documents: from a text, what it holds according to a schema. It gives nothing for a
text that is malformed or does not fit the schema. -/
class DocumentReader where
  read? {α : Type} (schema : Schema α) (text : String) : Option α

end RiscHart
