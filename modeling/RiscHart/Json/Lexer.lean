import RiscHart.Json.Number
import RiscHart.Json.Quoted
import RiscHart.Json.Syntax

/-!
# Reading tokens of JSON

The reader of tokens takes a text one character at a time. Its state is the mode it is in and the
tokens it has completed. A number or a word ends where a character comes that cannot belong to it,
so `settle` completes what is pending before `start` begins anew. Quoted text keeps its escapes,
which are checked for form alone.
-/

namespace RiscHart.Json

namespace Token

def ofPunctuation? : Char → Option Token
  | '\x7b' => some openBrace
  | '\x7d' => some closeBrace
  | '[' => some openBracket
  | ']' => some closeBracket
  | ',' => some comma
  | ':' => some colon
  | _ => none

def ofWord? (cs : List Char) : Option Token :=
  if cs = ['n', 'u', 'l', 'l'] then some null
  else if cs = ['t', 'r', 'u', 'e'] then some (bool true)
  else if cs = ['f', 'a', 'l', 's', 'e'] then some (bool false)
  else none

end Token

def isBlank (c : Char) : Bool := c ∈ [' ', '\t', '\n', '\r']

/-- What the reader is in the middle of; texts are gathered with the latest character first. -/
inductive Mode where
  | between
  | number (text : List Char)
  | word (text : List Char)
  | quoted (raw : List Char)
  | escape (raw : List Char)
  /-- Inside a code unit, with `more` hexadecimal digits to come after the next one. -/
  | unit (raw : List Char) (more : Nat)
  deriving DecidableEq

structure Lexer where
  mode : Mode := .between
  /-- The completed tokens, the latest first. -/
  tokens : List Token := []
  deriving DecidableEq

namespace Lexer

/-- Completes a pending number or word. -/
def settle (s : Lexer) : Option Lexer :=
  match s.mode with
  | .between => some s
  | .number text =>
    if isNumber text.reverse then some ⟨.between, .number text.reverse :: s.tokens⟩ else none
  | .word text => (Token.ofWord? text.reverse).map fun t => ⟨.between, t :: s.tokens⟩
  | _ => none

/-- Takes a character that belongs to no pending token. -/
def start (tokens : List Token) (c : Char) : Option Lexer :=
  if isBlank c then some ⟨.between, tokens⟩
  else if c = '"' then some ⟨.quoted [], tokens⟩
  else if isNumberChar c && c ≠ 'e' && c ≠ 'E' then some ⟨.number [c], tokens⟩
  else if c.isLower then some ⟨.word [c], tokens⟩
  else (Token.ofPunctuation? c).map fun t => ⟨.between, t :: tokens⟩

def step (s : Lexer) (c : Char) : Option Lexer :=
  match s.mode with
  | .between => start s.tokens c
  | .number text =>
    if isNumberChar c then some { s with mode := .number (c :: text) }
    else s.settle.bind fun s => start s.tokens c
  | .word text =>
    if c.isLower then some { s with mode := .word (c :: text) }
    else s.settle.bind fun s => start s.tokens c
  | .quoted raw =>
    if c = '"' then some ⟨.between, .string raw.reverse :: s.tokens⟩
    else if c = '\\' then some { s with mode := .escape (c :: raw) }
    else if c.toNat < 0x20 then none
    else some { s with mode := .quoted (c :: raw) }
  | .escape raw =>
    if c = 'u' then some { s with mode := .unit (c :: raw) 3 }
    else (escaped? c).map fun _ => { s with mode := .quoted (c :: raw) }
  | .unit raw more =>
    (hexDigit? c).map fun _ =>
      match more with
      | 0 => { s with mode := .quoted (c :: raw) }
      | more + 1 => { s with mode := .unit (c :: raw) more }

end Lexer

/-- The tokens of a text, or `none` if some part of it is no token. -/
def tokens? (text : List Char) : Option (List Token) := do
  let s ← text.foldlM Lexer.step {}
  let s ← s.settle
  some s.tokens.reverse

end RiscHart.Json
