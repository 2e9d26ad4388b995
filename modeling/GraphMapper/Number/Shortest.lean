import GraphMapper.Number.Double

/-! # The shortest decimal of a double

A decimal stands for a double when it lies in the interval of reals that round to that double; the
ends of the interval belong to it when the significand is even, because ties go to even.
`FiniteDouble.shortest` looks at decimals of one digit, then of two, and so on. On each grid only
the two neighbours of the exact value can be the nearest point of the interval, so the first grid on
which one of them lies in the interval gives the fewest digits, and of two such neighbours the
nearer one is taken. Seventeen digits always suffice.
-/

namespace GraphMapper

/-- `0.d₁d₂…` shifted: the digits of `digits` read as one number, its first digit having the weight
`10 ^ exponent`. -/
structure Decimal where
  digits : Nat
  exponent : Int
  deriving DecidableEq, Repr

/-- The number of decimal digits of `n`, none for zero. -/
def digitCount (n : Nat) : Nat := if n = 0 then 0 else (Nat.toDigits 10 n).length

/-- The exponent `p` with `10 ^ p ≤ num / den < 10 ^ (p + 1)`, for a positive ratio. -/
def floorLog10 (num den : Nat) : Int :=
  if den ≤ num then (digitCount (num / den) : Int) - 1
  else -(digitCount ((den + num - 1) / num - 1) : Int)

/-- The reals that round to a double, over the common denominator `den`. -/
structure RoundingInterval where
  low : Nat
  value : Nat
  high : Nat
  den : Nat
  closed : Bool

namespace FiniteDouble

/-- Half the gap to either neighbour; below a power of two the lower gap is half as wide. -/
def roundingInterval (x : FiniteDouble) : RoundingInterval :=
  let unit := twoTo (x.scale - 2).toNat
  let below := if x.fraction.val = 0 ∧ 1 < x.exponent.val then 1 else 2
  { low := (4 * x.significand - below) * unit
    value := 4 * x.significand * unit
    high := (4 * x.significand + 2) * unit
    den := twoTo (2 - x.scale).toNat
    closed := x.significand % 2 == 0 }

end FiniteDouble

namespace RoundingInterval

/-- Whether `n * 10 ^ place` lies in the interval. -/
def holds (i : RoundingInterval) (place : Int) (n : Nat) : Bool :=
  let point := n * tenTo place.toNat * i.den
  let low := i.low * tenTo (-place).toNat
  let high := i.high * tenTo (-place).toNat
  if i.closed then low ≤ point && point ≤ high else low < point && point < high

/-- The multiple of `10 ^ place` in the interval that is nearest to the value, if there is one. -/
def nearestOn (i : RoundingInterval) (place : Int) : Option Nat :=
  let num := i.value * tenTo (-place).toNat
  let den := i.den * tenTo place.toNat
  let floor := num / den
  match i.holds place floor, i.holds place (floor + 1) with
  | true, true =>
    let remainder := num % den
    if 2 * remainder < den then some floor
    else if den < 2 * remainder then some (floor + 1)
    else if floor % 2 = 0 then some floor
    else some (floor + 1)
  | true, false => some floor
  | false, true => some (floor + 1)
  | false, false => none

/-- Tries `count`, `count + 1`, … digits, for at most `fuel` grids. -/
def search (i : RoundingInterval) (lead : Int) (count : Nat) : Nat → Option Nat
  | 0 => none
  | fuel + 1 =>
    match i.nearestOn (lead - (count - 1 : Nat)) with
    | some n => some n
    | none => search i lead (count + 1) fuel

end RoundingInterval

/-- The fewest digits that read back as `x`, a number other than zero; of those the nearest. -/
def FiniteDouble.shortest (x : FiniteDouble) : Decimal :=
  let interval := x.roundingInterval
  let lead := floorLog10 interval.value interval.den
  match interval.search lead 1 17 with
  | some 10 => ⟨1, lead + 1⟩
  | some n => ⟨n, lead⟩
  | none => ⟨0, lead⟩

end GraphMapper
