import GraphMapper.Aql.Aggregate
import GraphMapper.Query.Basic

/-! # The outline of a query

What the rows of a query consist of: whole documents, projected fields, or groups with totals.
`Outline.ofQuery` refuses everything that is wrong whatever the schema: limits out of range, unknown
functions, totals over different groups, and totals together with projections or inclusions.
-/

namespace GraphMapper

structure Outline where
  /-- Projected fields, each path once. -/
  projection : List FieldPath := []
  totals : List (Aggregation × Aql.Function) := []
  included : Bool := false

namespace Outline

/-- Appends the fields whose paths are new. -/
def addFields (fields : List FieldPath) : List FieldPath → List FieldPath
  | [] => fields
  | f :: rest =>
    addFields (if fields.any fun g => g.path == f.path then fields else fields ++ [f]) rest

/-- The outline with one more stage. -/
def addStage (o : Outline) : Stage → Except Error Outline
  | .limit count offset =>
    if count.toInt ≤ 0 ∨ offset.toInt < 0 then .error (.invalidLimit count offset) else .ok o
  | .aggregate a => do
    let function ← Aql.Function.ofName a.function
    if let some (first, _) := o.totals.head? then
      if first.groupBy.map (·.path) ≠ a.groupBy.map (·.path) then
        throw (.invalidQuery .groupListsDiffer)
    return { o with totals := o.totals ++ [(a, function)] }
  | .project fields => return { o with projection := addFields o.projection fields }
  | .include _ => return { o with included := true }
  | _ => return o

/-- The outline of a query; totals stand alone. -/
def ofQuery (q : Query) : Except Error Outline := do
  let o ← q.stages.foldlM addStage {}
  if !o.totals.isEmpty then
    if !o.projection.isEmpty then throw (.invalidQuery .projectionWithAggregate)
    if o.included then throw (.invalidQuery .includeWithAggregate)
  return o

/-- The fields that the rows of an aggregation are grouped by. -/
def groups (o : Outline) : List FieldPath :=
  match o.totals with
  | [] => []
  | (first, _) :: _ => first.groupBy

end Outline

end GraphMapper
