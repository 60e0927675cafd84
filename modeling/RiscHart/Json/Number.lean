/-!
# The written form of numbers in JSON

A number is a whole part without superfluous leading zeros, perhaps after a minus sign, then perhaps
a fraction and perhaps an exponent. Nothing is said about how large it may be, so the value of its
digits is also given up to a limit.
-/

namespace RiscHart.Json

/-- The characters of which numbers consist. -/
def isNumberChar (c : Char) : Bool := c.isDigit || c ∈ ['-', '+', '.', 'e', 'E']

def isDigits (cs : List Char) : Bool := !cs.isEmpty && cs.all Char.isDigit

def isWhole (cs : List Char) : Bool := cs = ['0'] || (isDigits cs && cs.head? ≠ some '0')

/-- The end of a number from its exponent on. -/
def isExponent : List Char → Bool
  | [] => true
  | c :: cs =>
    (c = 'e' || c = 'E') &&
      isDigits (if cs.head? = some '+' ∨ cs.head? = some '-' then cs.tail else cs)

/-- The end of a number from its fraction on. -/
def isFraction : List Char → Bool
  | '.' :: cs => isDigits (cs.takeWhile Char.isDigit) && isExponent (cs.dropWhile Char.isDigit)
  | cs => isExponent cs

def isUnsigned (cs : List Char) : Bool :=
  isWhole (cs.takeWhile Char.isDigit) && isFraction (cs.dropWhile Char.isDigit)

def isNumber : List Char → Bool
  | '-' :: cs => isUnsigned cs
  | cs => isUnsigned cs

/-- The number that decimal digits stand for, the highest digit first. -/
def digitsValue (cs : List Char) : Nat := cs.foldl (fun n c => 10 * n + (c.toNat - 48)) 0

/-- The number that decimal digits stand for, or `limit` if it is larger; the sums on the way stay
small however many digits there are. -/
def boundedValue (limit : Nat) (cs : List Char) : Nat :=
  cs.foldl (fun n c => min limit (10 * n + (c.toNat - 48))) 0

theorem boundedValue_eq_min (limit : Nat) (cs : List Char) :
    boundedValue limit cs = min limit (digitsValue cs) := by
  have hfold (n : Nat) : cs.foldl (fun n c => min limit (10 * n + (c.toNat - 48))) (min limit n) =
      min limit (cs.foldl (fun n c => 10 * n + (c.toNat - 48)) n) := by
    induction cs generalizing n with
    | nil => rfl
    | cons c cs ih =>
      rw [List.foldl_cons, List.foldl_cons, ← ih]
      congr 1
      omega
  simpa [boundedValue, digitsValue] using hfold 0

end RiscHart.Json
