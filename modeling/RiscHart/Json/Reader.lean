import RiscHart.Json.Lexer

/-!
# Reading JSON values

A value is read off its tokens with an explicit stack of the arrays and objects that are still
open, so nesting may go to any depth.
-/

namespace RiscHart.Json

/-- An array, or an object and the key in it, that waits for a value to be completed. What it holds
so far is kept with the latest first. -/
inductive Frame where
  | array (items : List Json)
  | member (members : List (List Char × Json)) (key : List Char)

/-- What may come next, and the frames around it from the inside out. -/
inductive Reader where
  | value (stack : List Frame)
  | firstItem (stack : List Frame)
  | afterItem (items : List Json) (stack : List Frame)
  | firstKey (stack : List Frame)
  | nextKey (members : List (List Char × Json)) (stack : List Frame)
  | colon (members : List (List Char × Json)) (key : List Char) (stack : List Frame)
  | afterMember (members : List (List Char × Json)) (stack : List Frame)
  | done (v : Json)

namespace Reader

/-- Puts a completed value into the innermost frame. -/
def put (v : Json) : List Frame → Reader
  | [] => done v
  | .array items :: stack => afterItem (v :: items) stack
  | .member members key :: stack => afterMember ((key, v) :: members) stack

/-- Takes the first token of a value. -/
def begin (stack : List Frame) : Token → Option Reader
  | .openBrace => some (firstKey stack)
  | .openBracket => some (firstItem stack)
  | .null => some (put .null stack)
  | .bool b => some (put (.bool b) stack)
  | .number text => some (put (.number text) stack)
  | .string raw => some (put (.string raw) stack)
  | _ => none

def feed : Reader → Token → Option Reader
  | value stack, t => begin stack t
  | firstItem stack, .closeBracket => some (put (.array []) stack)
  | firstItem stack, t => begin (.array [] :: stack) t
  | afterItem items stack, .comma => some (value (.array items :: stack))
  | afterItem items stack, .closeBracket => some (put (.array items.reverse) stack)
  | firstKey stack, .closeBrace => some (put (.object []) stack)
  | firstKey stack, .string key => some (colon [] key stack)
  | nextKey members stack, .string key => some (colon members key stack)
  | colon members key stack, .colon => some (value (.member members key :: stack))
  | afterMember members stack, .comma => some (nextKey members stack)
  | afterMember members stack, .closeBrace => some (put (.object members.reverse) stack)
  | _, _ => none

end Reader

def ofTokens? (ts : List Token) : Option Json :=
  match ts.foldlM Reader.feed (.value []) with
  | some (.done v) => some v
  | _ => none

/-- The value that a whole text stands for. -/
def ofText? (text : String) : Option Json := (tokens? text.toList).bind ofTokens?

end RiscHart.Json
