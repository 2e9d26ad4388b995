/-! # The order of strings

Names are listed by their code points, which is also the order of their UTF-8 bytes. The order is
written out on lists of characters so that every fact about it is an induction on the two lists.

`Precedence` is the class of key types that a sorted table can be kept in.
-/

namespace GraphMapper

/-- A key type with a strict order, given as a test. -/
class Precedence (κ : Type) where
  precedes : κ → κ → Bool

namespace Text

/-- At the first difference the left code point is the smaller one, or the left list ends there. -/
def charsPrecede : List Char → List Char → Bool
  | _, [] => false
  | [], _ :: _ => true
  | a :: as, b :: bs => a.toNat.blt b.toNat || (a.toNat == b.toNat && charsPrecede as bs)

/-- `a` is listed before `b`. -/
def precedes (a b : String) : Bool := charsPrecede a.toList b.toList

end Text

instance : Precedence String where
  precedes := Text.precedes

end GraphMapper
