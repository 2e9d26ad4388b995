import GraphMapper.Query.Matching
import GraphMapper.Query.Outline

/-! # Grouping, sorting and paging

The clauses between the matched documents and the result. Sort keys gather until the next limit, so
that a limit cuts what the keys before it have sorted; keys after it sort what is left.
-/

namespace GraphMapper

/-- The clause of an aggregation, if there is one. -/
def Outline.collect (o : Outline) (columns : List Aql.Expr) : List Aql.Clause :=
  if o.totals.isEmpty then []
  else [.collect (o.groups.map (columnOr columns))
    (o.totals.map fun t => (t.2, columnOr columns t.1.field))]

/-- What a field is sorted by: after an aggregation only groups are left. -/
def Outline.sortKey (o : Outline) (columns : List Aql.Expr) (f : FieldPath) :
    Except Error Aql.Expr :=
  if o.totals.isEmpty then .ok (columnOr columns f)
  else
    match o.groups.findIdx? fun g => g.path == f.path with
    | some n => .ok (.field (.group n) [])
    | none => .error (.invalidQuery (.orderAfterAggregate f.path))

/-- A sort clause, unless there is nothing to sort by. -/
def sortClause (keys : List (Aql.Expr × SortDirection)) : List Aql.Clause :=
  if keys.isEmpty then [] else [.sort keys]

/-- Sorting and paging in stage order; `pending` holds the keys since the last limit. -/
def paging (sortKey : FieldPath → Except Error Aql.Expr)
    (pending : List (Aql.Expr × SortDirection)) : List Stage → Except Error (List Aql.Clause)
  | [] => .ok (sortClause pending)
  | .order fields direction :: rest => do
    let keys ← fields.mapM fun f => do return (← sortKey f, direction)
    paging sortKey (pending ++ keys) rest
  | .limit count offset :: rest => do
    let later ← paging sortKey [] rest
    return sortClause pending ++ .limit offset.toInt.toNat count.toInt.toNat :: later
  | _ :: rest => paging sortKey pending rest

end GraphMapper
