import GraphMapper.Aql.Statement
import GraphMapper.Mapper
import GraphMapper.Query.Matching
import GraphMapper.Query.Rows

/-! # The statement of a query

A query becomes one reading statement: the root loop, the filters and traversals, the inclusions,
the aggregation, sorting and paging, and the result. Its literals have their values from the start,
its parameters have none.
-/

namespace GraphMapper

/-- The result of the rows: totals by groups, projected fields, or the document, the latter two with
the inclusions. -/
def Outline.result (o : Outline) (q : Query) (columns : List Aql.Expr) : Aql.Result :=
  if !o.totals.isEmpty then
    .object (o.groups.mapIdx (fun n g => (g.path, .field (.group n) [])) ++
      o.totals.mapIdx fun n t => (t.2.resultKey t.1.field.path, .field (.total n) []))
  else if !o.projection.isEmpty then
    .object (o.projection.map (fun f => (f.path, columnOr columns f)) ++ q.includedEntries)
  else if !q.inclusions.isEmpty then .merged q.includedEntries
  else .document

/-- Literals with their slots. -/
def literalValues (literals : List Value) : List (Aql.Slot × Json) :=
  literals.mapIdx fun n v => (.literal n, v.toJson)

/-- The statement of a query. -/
def Mapper.statement (m : Mapper) (q : Query) : Except Error Statement := do
  let outline ← Outline.ofQuery q
  let joined := q.isJoined m.settings
  let columns := if joined then q.columns else []
  let matching ← q.matching m.topology joined
  let inclusions ← inclusionClauses m.topology q.entity 0 q.inclusions
  let pages ← paging (outline.sortKey columns) [] q.stages
  let clauses := matching ++ inclusions ++ outline.collect columns ++ pages
  return {
    Statement.closed (.read q.collection clauses (outline.result q columns))
      (literalValues (q.literals joined)) with
    unbound := q.parameters
    parameters := q.parameters }

end GraphMapper
