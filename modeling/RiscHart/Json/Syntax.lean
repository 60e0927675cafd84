/-!
# JSON values and their texts

A value of JSON, the tokens of which its text consists, and what the grammar of the format allows:
how a number is composed, what may stand between two quotes, and blanks before, between and behind
the tokens. Numbers and quoted texts stay as they are written. A value says what is in a text and
interprets none of it.
-/

namespace RiscHart

inductive Json where
  | null
  | bool (b : Bool)
  | number (text : List Char)
  | string (raw : List Char)
  | array (items : List Json)
  | object (members : List (List Char × Json))

namespace Json

/-! The grammar of numbers and of quoted texts. -/

/-- The part of a number before its fraction and exponent, without its sign. -/
inductive WholeText : List Char → Prop
  | zero : WholeText ['0']
  | digits {c : Char} {cs : List Char} (hc : c.isDigit) (hzero : c ≠ '0')
      (hcs : ∀ d ∈ cs, d.isDigit) : WholeText (c :: cs)

inductive FractionText : List Char → Prop
  | absent : FractionText []
  | digits {cs : List Char} (hne : cs ≠ []) (hcs : ∀ c ∈ cs, c.isDigit) : FractionText ('.' :: cs)

inductive ExponentText : List Char → Prop
  | absent : ExponentText []
  | digits {e : Char} {sign cs : List Char} (he : e = 'e' ∨ e = 'E')
      (hsign : sign = [] ∨ sign = ['+'] ∨ sign = ['-']) (hne : cs ≠ [])
      (hcs : ∀ c ∈ cs, c.isDigit) : ExponentText (e :: (sign ++ cs))

inductive NumberText : List Char → Prop
  | parts {sign whole fraction exponent : List Char} (hsign : sign = [] ∨ sign = ['-'])
      (hw : WholeText whole) (hf : FractionText fraction) (he : ExponentText exponent) :
      NumberText (sign ++ (whole ++ (fraction ++ exponent)))

def IsHex (c : Char) : Prop := c.isDigit ∨ ('a' ≤ c ∧ c ≤ 'f') ∨ ('A' ≤ c ∧ c ≤ 'F')

/-- What may stand between two quotes. -/
inductive QuotedText : List Char → Prop
  | nil : QuotedText []
  | plain {c : Char} {cs : List Char} (hquote : c ≠ '"') (hescape : c ≠ '\\')
      (hcontrol : 0x20 ≤ c.toNat) (hcs : QuotedText cs) : QuotedText (c :: cs)
  | escape {c : Char} {cs : List Char} (hc : c ∈ ['"', '\\', '/', 'b', 'f', 'n', 'r', 't'])
      (hcs : QuotedText cs) : QuotedText ('\\' :: c :: cs)
  | unit {a b c d : Char} {cs : List Char} (ha : IsHex a) (hb : IsHex b) (hc : IsHex c)
      (hd : IsHex d) (hcs : QuotedText cs) : QuotedText ('\\' :: 'u' :: a :: b :: c :: d :: cs)

/-- The values of the grammar: numbers and quoted texts are as it has them, at every depth. -/
inductive WellFormed : Json → Prop
  | null : WellFormed null
  | bool (b : Bool) : WellFormed (bool b)
  | number {text : List Char} (htext : NumberText text) : WellFormed (number text)
  | string {raw : List Char} (hraw : QuotedText raw) : WellFormed (string raw)
  | array {items : List Json} (hitems : ∀ v ∈ items, WellFormed v) : WellFormed (array items)
  | object {members : List (List Char × Json)} (hkeys : ∀ m ∈ members, QuotedText m.1)
      (hvalues : ∀ m ∈ members, WellFormed m.2) : WellFormed (object members)

/-! Tokens and texts. -/

inductive Token where
  | openBrace
  | closeBrace
  | openBracket
  | closeBracket
  | comma
  | colon
  | null
  | bool (b : Bool)
  | number (text : List Char)
  | string (raw : List Char)
  deriving DecidableEq

def Token.spelling : Token → List Char
  | openBrace => ['\x7b']
  | closeBrace => ['\x7d']
  | openBracket => ['[']
  | closeBracket => [']']
  | comma => [',']
  | colon => [':']
  | null => ['n', 'u', 'l', 'l']
  | bool true => ['t', 'r', 'u', 'e']
  | bool false => ['f', 'a', 'l', 's', 'e']
  | number text => text
  | string raw => '"' :: (raw ++ ['"'])

mutual

def tokens : Json → List Token
  | null => [.null]
  | bool b => [.bool b]
  | number text => [.number text]
  | string raw => [.string raw]
  | array [] => [.openBracket, .closeBracket]
  | array (v :: vs) => .openBracket :: (tokens v ++ moreItems vs)
  | object [] => [.openBrace, .closeBrace]
  | object ((key, v) :: ms) => .openBrace :: .string key :: .colon :: (tokens v ++ moreMembers ms)

/-- The end of an array after one of its items. -/
def moreItems : List Json → List Token
  | [] => [.closeBracket]
  | v :: vs => .comma :: (tokens v ++ moreItems vs)

/-- The end of an object after one of its members. -/
def moreMembers : List (List Char × Json) → List Token
  | [] => [.closeBrace]
  | (key, v) :: ms => .comma :: .string key :: .colon :: (tokens v ++ moreMembers ms)

end

/-- What may stand between two tokens. -/
inductive Blank where
  | space
  | tab
  | newline
  | carriageReturn

def Blank.char : Blank → Char
  | space => ' '
  | tab => '\t'
  | newline => '\n'
  | carriageReturn => '\r'

/-- The text of tokens with `gap i` before the `i`-th of them, and one more gap at the end. -/
def write (gap : Nat → List Blank) : List Token → List Char
  | [] => (gap 0).map Blank.char
  | t :: ts => (gap 0).map Blank.char ++ (t.spelling ++ write (fun i => gap (i + 1)) ts)

/-- The text of a value with the given gaps between its tokens. -/
def text (v : Json) (gap : Nat → List Blank) : String := String.ofList (write gap v.tokens)

end Json

end RiscHart
