import GraphMapper.Dict
import GraphMapper.Number.Double

/-! # JSON values

A JSON number is an integer that fits a signed or an unsigned word of 64 bits, or a finite double;
the two never coincide, so `1` and `1.0` are different values. The members of an object that was
read or built by this library are in key order with one entry per key.
-/

namespace GraphMapper

/-- The integer fits a signed or an unsigned word of 64 bits. -/
abbrev IsWord (i : Int) : Prop := -9223372036854775808 ≤ i ∧ i < 18446744073709551616

/-- A number without and with a fraction or exponent. -/
inductive JsonNumber where
  | integer (value : Int) (fits : IsWord value)
  | double (value : FiniteDouble)
  deriving DecidableEq

inductive Json where
  | null
  | bool (value : Bool)
  | number (value : JsonNumber)
  | string (value : String)
  | array (items : List Json)
  | object (members : List (String × Json))
  deriving Inhabited

namespace JsonNumber

/-- Every signed word is a number. -/
def ofInt64 (i : Int64) : JsonNumber :=
  .integer i.toInt ⟨i.le_toInt, Int.lt_trans i.toInt_lt (by decide)⟩

/-- The integer as a signed word, if it is one; a double never is. -/
def toInt64? : JsonNumber → Option Int64
  | .integer value _ => if value < 9223372036854775808 then some (Int64.ofInt value) else none
  | .double _ => none

/-- The number as a double, rounded where an integer needs it. -/
def toDouble : JsonNumber → Double
  | .integer value _ => Double.ofInt value
  | .double value => .finite value

end JsonNumber

namespace Json

def ofInt64 (i : Int64) : Json := .number (.ofInt64 i)

/-- A count; counts stay far below the limit of a word. -/
def ofNat (n : Nat) : Json :=
  if h : n < 18446744073709551616 then .number (.integer n ⟨by omega, by omega⟩) else .null

/-- An object from its members, in any order. -/
def ofMembers (members : List (String × Json)) : Json := .object (Dict.ofEntries members)

def ofStrings (items : List String) : Json := .array (items.map .string)

/-- Absent things are null. -/
def ofOption {α : Type} (write : α → Json) : Option α → Json
  | some a => write a
  | none => .null

def isNull : Json → Bool
  | .null => true
  | _ => false

def isArray : Json → Bool
  | .array _ => true
  | _ => false

def toString? : Json → Option String
  | .string s => some s
  | _ => none

def toBool? : Json → Option Bool
  | .bool b => some b
  | _ => none

def toInt64? : Json → Option Int64
  | .number n => n.toInt64?
  | _ => none

def toDouble? : Json → Option Double
  | .number n => some n.toDouble
  | _ => none

/-- An integer of at most 32 bits without a sign. -/
def toUInt32? : Json → Option UInt32
  | .number (.integer value _) =>
    if 0 ≤ value ∧ value < 4294967296 then some (UInt32.ofNat value.toNat) else none
  | _ => none

def toObject? : Json → Option (Dict String Json)
  | .object members => some members
  | _ => none

/-- The member of an object; nothing for any other value. -/
def get? (j : Json) (name : String) : Option Json :=
  match j with
  | .object members => Dict.find? members name
  | _ => none

/-- An array whose items can all be read. -/
def toList? {α : Type} (read : Json → Option α) : Json → Option (List α)
  | .array items => items.mapM read
  | _ => none

end Json

end GraphMapper
