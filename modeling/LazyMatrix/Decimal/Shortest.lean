/-! The shortest decimal that reads back as a given binary number. A finite binary number `m * 2 ^
q` owns the reals that round to it, an interval around it whose ends belong to it when `m` is
even. Of the powers of ten the largest with a multiple in that interval is taken, and of its
multiples there the nearest; a tie goes up. All of it is done in natural numbers. -/

namespace LazyMatrix

/-- The number `digits * 10 ^ exponent`. -/
structure Decimal where
  digits : Nat
  exponent : Int
  deriving DecidableEq, Repr

/-- The number `mantissa * 2 ^ exponent`. -/
structure Dyadic where
  mantissa : Nat
  exponent : Int
  deriving DecidableEq, Repr

namespace Dyadic

def ofBits (bits : Nat) : Dyadic :=
  let fraction := bits % Nat.pow 2 52
  let biased : Nat := bits / Nat.pow 2 52 % Nat.pow 2 11
  if biased = 0 then ⟨fraction, -1074⟩ else ⟨Nat.pow 2 52 + fraction, (biased : Int) - 1075⟩

/-- How far below `x` its interval begins, in quarters of its last place: half the way to the number
below, which is half as long where the exponent changes. -/
def lowerGap (x : Dyadic) : Nat :=
  if x.mantissa = Nat.pow 2 52 ∧ x.exponent ≠ -1074 then 1 else 2

/-- A quarter of the last place of `x`, in units of `10 ^ k`, as a fraction. -/
def quarter (x : Dyadic) (k : Int) : Nat × Nat :=
  (Nat.pow 2 (x.exponent - 2).toNat * Nat.pow 10 (-k).toNat,
    Nat.pow 2 (2 - x.exponent).toNat * Nat.pow 10 k.toNat)

def owns (x : Dyadic) (k : Int) (c : Nat) : Bool :=
  let (num, den) := x.quarter k
  let low := (4 * x.mantissa - x.lowerGap) * num
  let high := (4 * x.mantissa + 2) * num
  if x.mantissa % 2 = 0 then low ≤ c * den && c * den ≤ high else low < c * den && c * den < high

def onGrid? (x : Dyadic) (k : Int) : Option Nat :=
  let (num, den) := x.quarter k
  let value := 4 * x.mantissa * num
  let below := value / den
  let above := below + 1
  match x.owns k below, x.owns k above with
  | true, true => if value - below * den < above * den - value then some below else some above
  | true, false => some below
  | false, true => some above
  | false, false => none

def startingGrid (x : Dyadic) : Int := (x.mantissa.log2 + 2 + x.exponent) * 30103 / 100000 + 2

def searchGrids (x : Dyadic) : (tries : Nat) → (k : Int) → Decimal
  | 0, k => ⟨4 * x.mantissa * (x.quarter k).1 / (x.quarter k).2, k⟩
  | tries + 1, k =>
      match x.onGrid? k with
      | some c => ⟨c, k⟩
      | none => searchGrids x tries (k - 1)

/-- Seventeen digits always suffice, and the first grid is fewer than five above the first digit. -/
def shortest (x : Dyadic) : Decimal := x.searchGrids 22 x.startingGrid

end Dyadic

end LazyMatrix
