import GraphMapper.Timestamp.Text
import GraphMapper.Value.Basic

/-! # Values as JSON

`Value.toJson` is the form of a value in documents and bind variables, `Value.read?` reads that form
back as a declared type, and `Value.ofJson` reads JSON that nobody declared a type for.

Writing is not injective: numbers that are not finite become null, and timestamps become strings.
-/

namespace GraphMapper.Value

/-! ## Written form -/

/-- A double as JSON; JSON has no infinities and no NaN. -/
def doubleToJson : Double → Json
  | .finite x => .number (.double x)
  | _ => .null

mutual
/-- The form of a value in documents and bind variables. -/
def toJson : Value → Json
  | null => .null
  | bool b => .bool b
  | int i => Json.ofInt64 i
  | float x => doubleToJson x
  | string s => .string s
  | timestamp t => .string t.text
  | list items => .array (toJsons items)
  | json j => j
def toJsons : List Value → List Json
  | [] => []
  | v :: rest => v.toJson :: toJsons rest
end

/-! ## Reading -/

mutual
/-- JSON without a declared type: integers that fit a signed word are integers, all other numbers
are floats, arrays are lists, and objects stay as they are. -/
def ofJson : Json → Value
  | .null => .null
  | .bool b => .bool b
  | .number n =>
    match n.toInt64? with
    | some i => .int i
    | none => .float n.toDouble
  | .string s => .string s
  | .array items => .list (ofJsons items)
  | .object members => .json (.object members)
def ofJsons : List Json → List Value
  | [] => []
  | j :: rest => ofJson j :: ofJsons rest
end

/-- Reads stored JSON as a field type; nothing if its shape does not fit. -/
def read? (type : FieldType) (raw : Json) : Option Value :=
  if raw.isNull then some .null
  else
    match type with
    | .string => raw.toString?.map .string
    | .integer => raw.toInt64?.map .int
    | .float => raw.toDouble?.map .float
    | .boolean => raw.toBool?.map .bool
    | .dateTime => (raw.toString?.bind Timestamp.parse?).map .timestamp
    | .json => some (.json raw)

end GraphMapper.Value
