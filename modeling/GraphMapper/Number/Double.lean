/-! # Double-precision numbers

A finite double is its three fields: sign, biased exponent and fraction. Its magnitude is
`significand * 2 ^ scale`, and all arithmetic is done on that exact value: a result is a ratio of
two naturals, rounded once, to nearest with ties to even (`Double.ofRatio`).

The finite doubles of one sign are ordered like their bit patterns. `Double.ofOrdinal` counts them
upwards from zero, so a significand that is rounded up to the next power of two carries into the
exponent by itself, and the first ordinal past the finite ones is infinity.
-/

namespace GraphMapper

/-! ## Powers -/

/-- Two to the power of `n`. -/
def twoTo (n : Nat) : Nat := Nat.pow 2 n

/-- Ten to the power of `n`. -/
def tenTo (n : Nat) : Nat := Nat.pow 10 n

/-! ## Doubles -/

/-- A finite double: sign, biased exponent (2047 is taken by infinities and NaN) and fraction of 52
bits. -/
structure FiniteDouble where
  negative : Bool
  exponent : Fin 2047
  fraction : Fin 4503599627370496
  deriving DecidableEq, Repr

/-- A double. The payload of a NaN is never looked at, so there is one NaN. -/
inductive Double where
  | finite (x : FiniteDouble)
  | infinite (negative : Bool)
  | nan
  deriving DecidableEq, Repr

/-! ## Rounding -/

/-- `num / den` to the nearest natural, a half to the even neighbour. -/
def roundHalfEven (num den : Nat) : Nat :=
  let quotient := num / den
  let remainder := num % den
  if 2 * remainder < den then quotient
  else if den < 2 * remainder then quotient + 1
  else if quotient % 2 = 0 then quotient
  else quotient + 1

/-- The exponent `e` with `2 ^ e ≤ num / den < 2 ^ (e + 1)`, for a positive ratio. -/
def floorLog2 (num den : Nat) : Int :=
  let guess : Int := (num.log2 : Int) - (den.log2 : Int)
  if den * twoTo guess.toNat ≤ num * twoTo (-guess).toNat then guess else guess - 1

/-- The multiple `m * 2 ^ scale` nearest to a positive ratio, where `scale` leaves `precision`
binary digits but does not go below `least`. -/
def roundToPrecision (precision : Nat) (least : Int) (num den : Nat) : Nat × Int :=
  let scale := max (floorLog2 num den - (precision - 1 : Nat)) least
  (roundHalfEven (num * twoTo (-scale).toNat) (den * twoTo scale.toNat), scale)

/-! ## Finite doubles -/

namespace FiniteDouble

/-- The significand with its leading bit, which subnormal numbers lack. -/
def significand (x : FiniteDouble) : Nat :=
  if x.exponent.val = 0 then x.fraction.val else 4503599627370496 + x.fraction.val

/-- The weight of the last bit of the significand is `2 ^ scale`. -/
def scale (x : FiniteDouble) : Int := (max 1 x.exponent.val : Nat) - 1075

def isZero (x : FiniteDouble) : Bool := x.exponent.val == 0 && x.fraction.val == 0

/-- The magnitude is `numerator / denominator`. -/
def numerator (x : FiniteDouble) : Nat := x.significand * twoTo x.scale.toNat

def denominator (x : FiniteDouble) : Nat := twoTo (-x.scale).toNat

def neg (x : FiniteDouble) : FiniteDouble := { x with negative := !x.negative }

end FiniteDouble

/-! ## Doubles -/

namespace Double

/-- The `n`-th double of a sign, counted from its zero. -/
def ofOrdinal (negative : Bool) (n : Nat) : Double :=
  if h : n / 4503599627370496 < 2047 then
    .finite ⟨negative, ⟨n / 4503599627370496, h⟩,
      ⟨n % 4503599627370496, Nat.mod_lt _ (by decide)⟩⟩
  else .infinite negative

def zero (negative : Bool) : Double := ofOrdinal negative 0

/-- The double nearest to `num / den` with the given sign. -/
def ofRatio (negative : Bool) (num den : Nat) : Double :=
  if num = 0 then zero negative
  else
    let (m, scale) := roundToPrecision 53 (-1074) num den
    ofOrdinal negative ((scale + 1074).toNat * 4503599627370496 + m)

def ofInt (i : Int) : Double := ofRatio (decide (i < 0)) i.natAbs 1

def neg : Double → Double
  | finite x => finite x.neg
  | infinite negative => infinite (!negative)
  | nan => nan

def isZero : Double → Bool
  | finite x => x.isZero
  | _ => false

/-- The rounded product of two finite doubles. -/
def mulFinite (x y : FiniteDouble) : Double :=
  ofRatio (x.negative != y.negative) (x.numerator * y.numerator) (x.denominator * y.denominator)

/-- The rounded quotient of two finite doubles, the second not zero. -/
def divFinite (x y : FiniteDouble) : Double :=
  ofRatio (x.negative != y.negative) (x.numerator * y.denominator) (x.denominator * y.numerator)

/-- Single precision: 24 binary digits, least weight `2 ^ (-149)`, and nothing from `2 ^ 128` on. -/
def toSingle : Double → Double
  | finite x =>
    if x.isZero then finite x
    else
      let (m, scale) := roundToPrecision 24 (-149) x.numerator x.denominator
      let num := m * twoTo scale.toNat
      let den := twoTo (-scale).toNat
      if den * twoTo 128 ≤ num then infinite x.negative else ofRatio x.negative num den
  | other => other

end Double

end GraphMapper
