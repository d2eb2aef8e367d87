import LazyMatrix.Decimal.Style

/-! Numerals: an optional sign, then `inf`, `infinity` or `nan` in any case, or decimal digits
with at most one point among or beside them and an optional exponent. The value is the nearest
floating-point number; past the largest it is infinity, and under half of the smallest zero. -/

namespace LazyMatrix.Decimal

def value (digits : List Char) : Nat :=
  digits.foldl (fun n c => 10 * n + (c.toNat - '0'.toNat)) 0

def splitSign : List Char → Bool × List Char
  | '-' :: rest => (true, rest)
  | '+' :: rest => (false, rest)
  | cs => (false, cs)

/-- The nearest number to `digits * 10 ^ exponent`. -/
def toFloat (d : Decimal) : Float := .ofModel (.ofScientific d.digits d.exponent)

def readExponent? : List Char → Option Int
  | [] => some 0
  | c :: rest =>
      if c = 'e' ∨ c = 'E' then
        let (negative, digits) := splitSign rest
        if digits.isEmpty || !digits.all Char.isDigit then none
        else some (if negative then -(value digits : Int) else value digits)
      else none

def readDigits? (cs : List Char) : Option Decimal :=
  let whole := cs.takeWhile Char.isDigit
  let (fraction, rest) := match cs.dropWhile Char.isDigit with
    | '.' :: after => (after.takeWhile Char.isDigit, after.dropWhile Char.isDigit)
    | after => ([], after)
  if whole.isEmpty && fraction.isEmpty then none
  else (readExponent? rest).map fun e => ⟨value (whole ++ fraction), e - fraction.length⟩

def readMagnitude? (cs : List Char) : Option Float :=
  let word := String.ofList (cs.map Char.toLower)
  if word = "inf" ∨ word = "infinity" then some (1 / 0)
  else if word = "nan" then some (0 / 0)
  else (readDigits? cs).map toFloat

def read? (text : String) : Option Float :=
  let (negative, rest) := splitSign text.toList
  (readMagnitude? rest).map fun x => if negative then -x else x

end LazyMatrix.Decimal
