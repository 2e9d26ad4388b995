import GraphMapper.Aql.Syntax
import GraphMapper.Error.Basic
import GraphMapper.Text.Identifier

/-! # Aggregate functions

Callers name a function in any mix of capitals and small letters; the average has two names. The key
of a result is the path that was aggregated with the suffix of the function.
-/

namespace GraphMapper.Aql.Function

def ofName? (name : String) : Option Function :=
  match Text.toLowerAscii name with
  | "count" => some count
  | "sum" => some sum
  | "average" => some average
  | "avg" => some average
  | "min" => some min
  | "max" => some max
  | _ => none

/-- The function of a name, or the error that names it. -/
def ofName (name : String) : Except Error Function :=
  match ofName? name with
  | some f => .ok f
  | none => .error (.unsupportedAggregate name)

/-- The suffix of a result key. -/
def suffix : Function → String
  | count => "count"
  | sum => "sum"
  | average => "avg"
  | min => "min"
  | max => "max"

/-- The key of a result. -/
def resultKey (f : Function) (path : String) : String := path ++ "__" ++ f.suffix

end GraphMapper.Aql.Function
