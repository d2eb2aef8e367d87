import LazyMatrix.Decimal.Shortest

/-! Floating-point numbers as text: the shortest digits that read back, laid out in one of two
styles. Scale constants are written positionally at any magnitude; the elements of a matrix always
show that they are not integers, by `.0` or by an exponent. -/

namespace LazyMatrix.Decimal

structure Style where
  /-- The exponents of the leading digit, from the first up to the second, that are written
  positionally; `none` stands for all of them. -/
  positional : Option (Int × Int)
  /-- A whole number written positionally ends in `.0`. -/
  pointZero : Bool

namespace Style

def constant : Style := ⟨none, false⟩

def element : Style := ⟨some (-4, 16), true⟩

end Style

def digitList (n : Nat) : List Char := Nat.toDigits 10 n

def leading (d : Decimal) : Int := (digitList d.digits).length - 1 + d.exponent

def isPositional (style : Style) (d : Decimal) : Bool :=
  match style.positional with
  | none => true
  | some (low, high) => low ≤ d.leading && d.leading < high

def zeroes (n : Nat) : List Char := List.replicate n '0'

def positionalText (style : Style) (d : Decimal) : List Char :=
  let digits := digitList d.digits
  if 0 ≤ d.exponent then
    digits ++ zeroes d.exponent.toNat ++ (if style.pointZero then ['.', '0'] else [])
  else
    let places := (-d.exponent).toNat
    let padded := zeroes (places + 1 - digits.length) ++ digits
    padded.take (padded.length - places) ++ '.' :: padded.drop (padded.length - places)

def exponentText (d : Decimal) : List Char :=
  let mark := 'e' :: (toString d.leading).toList
  match digitList d.digits with
  | first :: second :: rest => first :: '.' :: second :: rest ++ mark
  | digits => digits ++ mark

def text (style : Style) (d : Decimal) : List Char :=
  if isPositional style d then positionalText style d else exponentText d

def magnitudeText (style : Style) (bits : Nat) : List Char :=
  let x := Dyadic.ofBits bits
  text style (if x.mantissa = 0 then ⟨0, 0⟩ else x.shortest)

/-- A number from its bits. Not a number has no sign; anything else shows its own, zero included. -/
def bitsText (style : Style) (bits : Nat) : List Char :=
  let magnitude := bits % Nat.pow 2 63
  let infinity := 2047 * Nat.pow 2 52
  if infinity < magnitude then "NaN".toList
  else
    (if bits < Nat.pow 2 63 then [] else ['-']) ++
      (if magnitude = infinity then "inf".toList else magnitudeText style magnitude)

def write (style : Style) (x : Float) : String :=
  String.ofList (bitsText style x.toBits.toNat)

end LazyMatrix.Decimal
