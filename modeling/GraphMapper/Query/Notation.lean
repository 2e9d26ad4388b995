import GraphMapper.Json.Record
import GraphMapper.Query.Operation
import GraphMapper.Value.Stored

/-! # Operations as JSON

An operation is a record tagged by `op`, a condition one tagged by `kind`. Comparisons and
directions have a full name, which is the one written, and most have a short one. An operand that is
an object with a text under `param` is a parameter, whatever else it holds; everything else is a
literal.

A condition inside another record may also give its kind by its number, from zero in the order of
the type.
-/

namespace GraphMapper

/-! ## Names -/

namespace Comparison

/-- Every comparison with its name and its short form. -/
def names : List (Comparison × String × Option String) := [
  (equal, "equal", some "eq"),
  (notEqual, "not_equal", some "ne"),
  (lessThan, "less_than", some "lt"),
  (lessThanOrEqual, "less_than_or_equal", some "lte"),
  (greaterThan, "greater_than", some "gt"),
  (greaterThanOrEqual, "greater_than_or_equal", some "gte"),
  (contains, "contains", none),
  (startsWith, "starts_with", none),
  (isIn, "in", some "in_set")
]

def ofName? (s : String) : Option Comparison :=
  (names.find? fun e => e.2.1 == s || e.2.2 == some s).map (·.1)

def name : Comparison → String
  | equal => "equal"
  | notEqual => "not_equal"
  | lessThan => "less_than"
  | lessThanOrEqual => "less_than_or_equal"
  | greaterThan => "greater_than"
  | greaterThanOrEqual => "greater_than_or_equal"
  | contains => "contains"
  | startsWith => "starts_with"
  | isIn => "in"

def ofJson? (j : Json) : Option Comparison := j.caseName?.bind ofName?

end Comparison

namespace SortDirection

def name : SortDirection → String
  | ascending => "ascending"
  | descending => "descending"

def ofName? : String → Option SortDirection
  | "ascending" | "asc" => some ascending
  | "descending" | "desc" => some descending
  | _ => none

def ofJson? (j : Json) : Option SortDirection := j.caseName?.bind ofName?

end SortDirection

/-! ## Operands -/

namespace Operand

def ofJson (j : Json) : Operand :=
  match (j.get? "param").bind Json.toString? with
  | some name => parameter name
  | none => literal (Value.ofJson j)

def toJson : Operand → Json
  | parameter name => .object [("param", .string name)]
  | literal v => v.toJson

end Operand

/-! ## Conditions -/

/-- The cases of a condition. -/
inductive ConditionKind where
  | compare
  | isNull
  | all
  | any
  | not
  deriving DecidableEq, Repr

namespace ConditionKind

def ofName? : String → Option ConditionKind
  | "compare" => some compare
  | "is_null" => some isNull
  | "all" => some all
  | "any" => some any
  | "not" => some not
  | _ => none

def byNumber : List ConditionKind := [compare, isNull, all, any, not]

/-- A kind by its name or, inside another record, by its number. -/
def ofJson? (nested : Bool) : Json → Option ConditionKind
  | .string s => ofName? s
  | .number (.integer i _) => if nested ∧ 0 ≤ i then byNumber[i.toNat]? else none
  | _ => none

end ConditionKind

namespace Condition

/-- The number of JSON values inside one another, which bounds the nesting of conditions. -/
def jsonDepth : Json → Nat
  | .array items => jsonDepths items + 1
  | .object members => memberDepths members + 1
  | _ => 1
where
  jsonDepths : List Json → Nat
    | [] => 0
    | j :: rest => max (jsonDepth j) (jsonDepths rest)
  memberDepths : List (String × Json) → Nat
    | [] => 0
    | (_, j) :: rest => max (jsonDepth j) (memberDepths rest)

/-- Reads a condition nested at most `fuel` deep. -/
def read? (nested : Bool) : Nat → Json → Option Condition
  | 0, _ => none
  | fuel + 1, j =>
    RecordReader.tagged? "kind" (ConditionKind.ofJson? nested) (fun kind =>
      match kind with
      | .compare => do
        let path ← RecordReader.field "path" Json.toString?
        let comparison ← RecordReader.field "op" Comparison.ofJson?
        let operand ← RecordReader.field "value" fun j => some (Operand.ofJson j)
        return .compare path comparison operand
      | .isNull => do
        let path ← RecordReader.field "path" Json.toString?
        let negated ← RecordReader.fieldOr "negated" false Json.toBool?
        return .isNull path negated
      | .all => do
        return .all (← RecordReader.field "conditions" (Json.toList? (read? true fuel)))
      | .any => do
        return .any (← RecordReader.field "conditions" (Json.toList? (read? true fuel)))
      | .not => do
        return .not (← RecordReader.field "condition" (read? true fuel))) j

/-- Reads a condition; every level of conditions is a level of JSON. -/
def ofJson? (nested : Bool) (j : Json) : Option Condition := read? nested (jsonDepth j) j

mutual
def toJson : Condition → Json
  | .compare path comparison operand => .object [("kind", .string "compare"),
      ("op", .string comparison.name), ("path", .string path), ("value", operand.toJson)]
  | .isNull path negated => .object [("kind", .string "is_null"), ("negated", .bool negated),
      ("path", .string path)]
  | .all conditions => .object [("conditions", .array (toJsons conditions)),
      ("kind", .string "all")]
  | .any conditions => .object [("conditions", .array (toJsons conditions)),
      ("kind", .string "any")]
  | .not condition => .object [("condition", condition.toJson), ("kind", .string "not")]
def toJsons : List Condition → List Json
  | [] => []
  | c :: rest => c.toJson :: toJsons rest
end

end Condition

/-! ## Operations -/

namespace Operation

/-- The fields of an operation of the given tag. -/
def reader (tag : String) : RecordReader Operation :=
  match tag with
  | "filter" => do
    return .filter (← RecordReader.field "condition" (Condition.ofJson? true))
  | "project" => do
    return .project (← RecordReader.field "fields" (Json.toList? Json.toString?))
  | "order" => do
    let fields ← RecordReader.field "fields" (Json.toList? Json.toString?)
    let direction ← RecordReader.fieldOr "direction" .ascending SortDirection.ofJson?
    return .order fields direction
  | "limit" => do
    let count ← RecordReader.field "count" Json.toInt64?
    let offset ← RecordReader.fieldOr "offset" 0 Json.toInt64?
    return .limit count offset
  | "aggregate" => do
    let function ← RecordReader.field "function" Json.toString?
    let field ← RecordReader.field "field" Json.toString?
    let groupBy ← RecordReader.fieldOr "group_by" [] (Json.toList? Json.toString?)
    return .aggregate function field groupBy
  | "traverse" => do
    let relationship ← RecordReader.field "relationship" Json.toString?
    let depth ← RecordReader.fieldOr "depth" 1 Json.toUInt32?
    return .traverse relationship depth
  | "include" => do
    return .include (← RecordReader.field "relationship" Json.toString?)
  | _ => fun _ => none

def ofJson? (j : Json) : Option Operation :=
  RecordReader.tagged? "op" Json.toString? reader j

/-- Reads a list of operations; one that cannot be read spoils the list. -/
def listOfJson? (j : Json) : Option (List Operation) := j.toList? ofJson?

def toJson : Operation → Json
  | .filter condition => .object [("condition", condition.toJson), ("op", .string "filter")]
  | .project fields => .object [("fields", Json.ofStrings fields), ("op", .string "project")]
  | .order fields direction => .object [("direction", .string direction.name),
      ("fields", Json.ofStrings fields), ("op", .string "order")]
  | .limit count offset => .object [("count", Json.ofInt64 count), ("offset", Json.ofInt64 offset),
      ("op", .string "limit")]
  | .aggregate function field groupBy => .object [("field", .string field),
      ("function", .string function), ("group_by", Json.ofStrings groupBy),
      ("op", .string "aggregate")]
  | .traverse relationship depth => .object [("depth", Json.ofNat depth.toNat),
      ("op", .string "traverse"), ("relationship", .string relationship)]
  | .include relationship => .object [("op", .string "include"),
      ("relationship", .string relationship)]

def listToJson (ops : List Operation) : Json := .array (ops.map toJson)

end Operation

end GraphMapper
