import GraphMapper.Json.Basic

/-! # Numbers of JSON texts

A numeral keeps the digits that were written. Its value is an integer when it shows neither a
fraction nor an exponent and fits a word; `-0` and everything longer become doubles.

A double is made from two parts. The significand takes the digits from the left for as long as it
fits an unsigned word of 64 bits; digits before the point that did not fit count as a power of ten,
later ones are dropped. The significand is rounded to a double and then multiplied or divided by the
double nearest to the power of ten. That is two roundings, so a numeral with many digits may come
out one place off the nearest double. A value beyond the finite doubles is refused.
-/

namespace GraphMapper

/-- A written number: sign, digits before the point, digits after it, and the exponent. -/
structure Numeral where
  negative : Bool
  whole : List Nat
  fraction : Option (List Nat)
  exponent : Option Int
  deriving DecidableEq, Repr

namespace Numeral

/-- Appends digits while the result fits a word; also gives the digits that are left over. -/
def absorb (significand : Nat) : List Nat → Nat × List Nat
  | [] => (significand, [])
  | d :: rest =>
    if significand * 10 + d < 18446744073709551616 then absorb (significand * 10 + d) rest
    else (significand, d :: rest)

/-- The double nearest to a power of ten. -/
def powerOfTen (n : Nat) : FiniteDouble :=
  match Double.ofRatio false (tenTo n) 1 with
  | .finite x => x
  | _ => ⟨false, 0, 0⟩

/-- The number, unless it is infinite. -/
def finite? : Double → Option FiniteDouble
  | .finite x => some x
  | _ => none

/-- Divides by `10 ^ 308` up to `n` times and stops at zero. -/
def shrink (x : FiniteDouble) : Nat → Option FiniteDouble
  | 0 => some x
  | n + 1 =>
    if x.isZero then some x
    else
      match finite? (Double.divFinite x (powerOfTen 308)) with
      | some y => shrink y n
      | none => none

/-- `x / 10 ^ n` for a positive `n`: quotients of `10 ^ 308`, then one of what is left. -/
def divideByTen (x : FiniteDouble) (n : Nat) : Option FiniteDouble :=
  let full := (n - 1) / 308
  match shrink x full with
  | some y => finite? (Double.divFinite y (powerOfTen (n - 308 * full)))
  | none => none

/-- `x * 10 ^ exponent`, if it is finite. -/
def scaleByTen (x : FiniteDouble) (exponent : Int) : Option FiniteDouble :=
  if x.isZero then some x
  else if exponent < 0 then divideByTen x exponent.natAbs
  else if exponent ≤ 308 then finite? (Double.mulFinite x (powerOfTen exponent.natAbs))
  else none

/-- The double of a significand and a power of ten. -/
def toDouble? (negative : Bool) (significand : Nat) (exponent : Int) : Option JsonNumber := do
  let x ← finite? (Double.ofRatio false significand 1)
  let y ← scaleByTen x exponent
  return .double { y with negative := negative }

/-- A whole number that was read to its end. -/
def wholeNumber (negative : Bool) (significand : Nat) : Option JsonNumber :=
  let value : Int := if negative then -significand else significand
  if h : IsWord value then
    if negative && significand == 0 then toDouble? true 0 0 else some (.integer value h)
  else toDouble? negative significand 0

/-- The value of a numeral. -/
def value? (n : Numeral) : Option JsonNumber :=
  let (whole, dropped) := absorb 0 n.whole
  match n.fraction, n.exponent with
  | none, none =>
    if dropped.isEmpty then wholeNumber n.negative whole
    else toDouble? n.negative whole dropped.length
  | fraction, exponent =>
    let digits := fraction.getD []
    let (significand, ignored) := absorb whole digits
    let places : Int := (dropped.length : Int) - (digits.length - ignored.length : Nat)
    toDouble? n.negative significand (places + exponent.getD 0)

end Numeral

end GraphMapper
