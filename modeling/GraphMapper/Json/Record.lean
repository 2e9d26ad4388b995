import GraphMapper.Json.Basic

/-! # Reading records

A record is written as an object with named fields or as an array with the fields in their declared
order. A reader takes the declared fields one after the other: by name it ignores other members, by
position it takes the next item, and `read?` refuses an array with items left over. A field that is
absent has its default or is refused; `null` counts as present.

A tagged record names its case first: by the member of a given name, or by the first item.
-/

namespace GraphMapper

/-- The fields of a record, by name or by position. -/
inductive RecordFields where
  | named (members : Dict String Json)
  | listed (values : List Json)

/-- A reader of some of the fields. -/
abbrev RecordReader (α : Type) := StateT RecordFields Option α

namespace RecordFields

def of? : Json → Option RecordFields
  | .object members => some (.named members)
  | .array values => some (.listed values)
  | _ => none

/-- The next declared field, if it is present, and the fields after it. -/
def next (name : String) : RecordFields → Option Json × RecordFields
  | .named members => (Dict.find? members name, .named members)
  | .listed [] => (none, .listed [])
  | .listed (v :: rest) => (some v, .listed rest)

/-- No item of the array form is left over. -/
def isDone : RecordFields → Bool
  | .named _ => true
  | .listed values => values.isEmpty

end RecordFields

namespace RecordReader

/-- A field that must be present. -/
def field {α : Type} (name : String) (read : Json → Option α) : RecordReader α := fun fields =>
  match fields.next name with
  | (some j, rest) => (read j).map (·, rest)
  | (none, _) => none

/-- A field with a default. -/
def fieldOr {α : Type} (name : String) (default : α) (read : Json → Option α) :
    RecordReader α := fun fields =>
  match fields.next name with
  | (some j, rest) => (read j).map (·, rest)
  | (none, rest) => some (default, rest)

/-- Reads all fields and checks that nothing is left over. -/
def finish? {α : Type} (reader : RecordReader α) (fields : RecordFields) : Option α := do
  let (a, rest) ← reader fields
  if rest.isDone then some a else none

/-- Reads a record. -/
def read? {α : Type} (reader : RecordReader α) (j : Json) : Option α := do
  reader.finish? (← RecordFields.of? j)

/-- Reads a record whose case is chosen by the field `tag`. -/
def tagged? {τ α : Type} (tag : String) (readTag : Json → Option τ) (reader : τ → RecordReader α)
    (j : Json) : Option α := do
  let (t, rest) ← field tag readTag (← RecordFields.of? j)
  (reader t).finish? rest

end RecordReader

namespace Json

/-- The name of a case without fields: a string, or an object with that one member and nothing in
it. -/
def caseName? : Json → Option String
  | .string name => some name
  | .object [(name, .null)] => some name
  | .object [(name, .object [])] => some name
  | _ => none

end Json

end GraphMapper
