import GraphMapper.Json.Basic
import GraphMapper.Timestamp.Basic

/-! # Field types and values

A `Value` is what filters compare with and what attributes hold; a `FieldType` is what an attribute
is declared to hold. `FieldType.accepts` says which values may be compared with, or stored in, an
attribute. Null belongs to every type.
-/

namespace GraphMapper

/-! ## Types -/

inductive FieldType where
  | string
  | integer
  | float
  | boolean
  | dateTime
  /-- Any JSON: arrays and nested objects too. -/
  | json
  deriving DecidableEq, Repr

namespace FieldType

/-- The type as messages name it. -/
def text : FieldType → String
  | string => "string"
  | integer => "integer"
  | float => "float"
  | boolean => "boolean"
  | dateTime => "datetime"
  | json => "json"

/-- The type as declarations name it. -/
def name : FieldType → String
  | dateTime => "date_time"
  | other => other.text

def all : List FieldType := [string, integer, float, boolean, dateTime, json]

def ofName? (s : String) : Option FieldType := all.find? fun t => t.name == s

end FieldType

/-! ## Values -/

inductive Value where
  | null
  | bool (value : Bool)
  | int (value : Int64)
  | float (value : Double)
  | string (value : String)
  | timestamp (value : Timestamp)
  | list (items : List Value)
  | json (value : Json)
  deriving Inhabited

namespace FieldType

/-- Whether a value of this shape may stand in a field of this type. Integers also stand for floats,
and strings for date-times, which are stored as strings. -/
def accepts : FieldType → Value → Bool
  | _, .null => true
  | json, _ => true
  | string, .string _ => true
  | integer, .int _ => true
  | float, .int _ => true
  | float, .float _ => true
  | boolean, .bool _ => true
  | dateTime, .timestamp _ => true
  | dateTime, .string _ => true
  | _, _ => false

end FieldType

namespace Value

/-! ## Views -/

def isNull : Value → Bool
  | null => true
  | _ => false

def toString? : Value → Option String
  | string s => some s
  | _ => none

def toInt64? : Value → Option Int64
  | int i => some i
  | _ => none

/-- Integers are read as floats too. -/
def toDouble? : Value → Option Double
  | float x => some x
  | int i => some (Double.ofInt i.toInt)
  | _ => none

def toBool? : Value → Option Bool
  | bool b => some b
  | _ => none

def toTimestamp? : Value → Option Timestamp
  | timestamp t => some t
  | _ => none

end Value

end GraphMapper
