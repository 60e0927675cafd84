/-!
# Written numbers

Decimal, hexadecimal and binary numerals as they stand in messages and assembly text. Digits are
lower case, and hexadecimal and binary numerals carry their base in front. A padded numeral has at
least the given count of digits; a longer number is written in full.
-/

namespace RiscHart.Numeral

def decimal (n : Nat) : String := String.ofList (Nat.toDigits 10 n)

/-- A decimal numeral with a minus sign in front of a negative number. -/
def signed : Int → String
  | .ofNat n => decimal n
  | .negSucc n => "-" ++ decimal (n + 1)

def hex (n : Nat) : String := "0x" ++ String.ofList (Nat.toDigits 16 n)

def hexPadded (digits n : Nat) : String :=
  "0x" ++ String.ofList ((Nat.toDigits 16 n).leftpad digits '0')

def binaryPadded (digits n : Nat) : String :=
  "0b" ++ String.ofList ((Nat.toDigits 2 n).leftpad digits '0')

/-- A machine word is written with all of its eight hexadecimal digits. -/
def word (w : BitVec 32) : String := hexPadded 8 w.toNat

end RiscHart.Numeral
