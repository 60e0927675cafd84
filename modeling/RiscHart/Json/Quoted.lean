/-!
# Quoted text in JSON

Between its quotes a text is kept as it was written, with its escapes. `decode?` replaces them. An
escape that names a UTF-16 code unit stands for a character together with the escape that follows it
if the two are a high and a low surrogate; any other surrogate stands for nothing, and the text has
no decoded form.
-/

namespace RiscHart.Json

/-- What the character after a backslash stands for, other than a code unit. -/
def escaped? (c : Char) : Option Char :=
  match c with
  | '"' => some '"'
  | '\\' => some '\\'
  | '/' => some '/'
  | 'b' => some '\x08'
  | 'f' => some '\x0c'
  | 'n' => some '\n'
  | 'r' => some '\r'
  | 't' => some '\t'
  | _ => none

def hexDigit? (c : Char) : Option Nat :=
  if c.isDigit then some (c.toNat - 48)
  else if 'a' ≤ c ∧ c ≤ 'f' then some (c.toNat - 87)
  else if 'A' ≤ c ∧ c ≤ 'F' then some (c.toNat - 55)
  else none

/-- A piece of quoted text: a character, or a UTF-16 code unit. -/
inductive Piece where
  | char (c : Char)
  | unit (u : Nat)
  deriving DecidableEq

def unit? (cs : List Char) : Option Nat :=
  cs.foldlM (fun n c => (hexDigit? c).map (16 * n + ·)) 0

def pieces? : List Char → Option (List Piece)
  | [] => some []
  | '\\' :: 'u' :: a :: b :: c :: d :: cs => do
    let u ← unit? [a, b, c, d]
    let ps ← pieces? cs
    some (.unit u :: ps)
  | '\\' :: c :: cs => do
    let e ← escaped? c
    let ps ← pieces? cs
    some (.char e :: ps)
  | c :: cs => do
    let ps ← pieces? cs
    some (.char c :: ps)

/-- The character of a high and a low surrogate. -/
def surrogatePair? (high low : Nat) : Option Char :=
  if 0xD800 ≤ high ∧ high < 0xDC00 ∧ 0xDC00 ≤ low ∧ low < 0xE000 then
    some (Char.ofNat (0x10000 + 0x400 * (high - 0xD800) + (low - 0xDC00)))
  else none

def isSurrogate (u : Nat) : Bool := 0xD800 ≤ u && u < 0xE000

def chars? : List Piece → Option (List Char)
  | [] => some []
  | .char c :: ps => (chars? ps).map (c :: ·)
  | .unit u :: ps =>
    if isSurrogate u then
      match ps with
      | .unit v :: ps => do
        let c ← surrogatePair? u v
        let cs ← chars? ps
        some (c :: cs)
      | _ => none
    else (chars? ps).map (Char.ofNat u :: ·)

def decode? (raw : List Char) : Option String :=
  ((pieces? raw).bind chars?).map String.ofList

end RiscHart.Json
