import GraphMapper.Number.Shortest

/-! # How a double is written

The digits are the shortest ones; a `DecimalNotation` says how they are laid out. `jsonNotation` is
the layout of JSON texts: `0.00001` and `1000000000000000.0` are written out, `1e+16` and `1.5e-7`
are not, and a number written out always shows a point.
-/

namespace GraphMapper

/-- Where digits are written out in full, and the marks used where they are not. -/
structure DecimalNotation where
  leastPlain : Int
  greatestPlain : Int
  exponentMark : String
  positiveMark : String
  negativeMark : String

/-- Exponents from -5 to 15 are written out; other numbers carry a signed exponent. -/
def jsonNotation : DecimalNotation where
  leastPlain := -5
  greatestPlain := 15
  exponentMark := "e"
  positiveMark := "+"
  negativeMark := "-"

namespace DecimalNotation

/-- `digits` with the point after the digit of weight one; a side without digits shows a zero. -/
def plain (digits : List Char) (exponent : Int) : String :=
  if exponent < 0 then
    String.ofList ("0.".toList ++ List.replicate ((-exponent).toNat - 1) '0' ++ digits)
  else
    let whole := exponent.toNat + 1
    let before := digits.take whole ++ List.replicate (whole - digits.length) '0'
    let after := digits.drop whole
    String.ofList (before ++ '.' :: (if after.isEmpty then ['0'] else after))

/-- One digit, the others after a point, and the exponent with its sign. -/
def scientific (n : DecimalNotation) (digits : List Char) (exponent : Int) : String :=
  let mantissa := match digits with
    | [] => ""
    | [d] => String.ofList [d]
    | d :: rest => String.ofList (d :: '.' :: rest)
  let mark := if exponent < 0 then n.negativeMark else n.positiveMark
  mantissa ++ n.exponentMark ++ mark ++ toString exponent.natAbs

/-- The text of a decimal without a sign. -/
def decimal (n : DecimalNotation) (d : Decimal) : String :=
  let digits := Nat.toDigits 10 d.digits
  if n.leastPlain ≤ d.exponent ∧ d.exponent ≤ n.greatestPlain then plain digits d.exponent
  else n.scientific digits d.exponent

/-- The text of a finite double; zero is `0.0` and keeps its sign. -/
def double (n : DecimalNotation) (x : FiniteDouble) : String :=
  let sign := if x.negative then "-" else ""
  sign ++ if x.isZero then "0.0" else n.decimal x.shortest

end DecimalNotation

end GraphMapper
