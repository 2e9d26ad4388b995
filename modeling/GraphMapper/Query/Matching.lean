import GraphMapper.Query.Filter
import GraphMapper.Relation.Topology
import GraphMapper.Settings

/-! # Matching documents

The filters, traversals and inclusions of a query as clauses. There are two forms for a query with
traversals. Flattened, filters and traversals are nested loops in stage order, and a root document
gives one row for each combination of related documents. Distinct, the traversals and the filters
that reach into them go into one first match, so that a root document gives one row; filters on the
root alone stand before it.

What sorting, projection and aggregation read from related documents has to leave the first match. Each
expression that they read is one column of it, numbered in the order of first use.

Literals are numbered in the order in which the filters stand in the statement.
-/

namespace GraphMapper

/-! ## Columns -/

/-- The fields of a stage that are read after the traversals and filters. -/
def Stage.laterFields : Stage → List FieldPath
  | order fields _ => fields
  | project fields => fields
  | aggregate a => a.groupBy ++ [a.field]
  | _ => []

/-- Appends the expressions that are new. -/
def addExprs (exprs : List Aql.Expr) : List Aql.Expr → List Aql.Expr
  | [] => exprs
  | e :: rest => addExprs (if exprs.contains e then exprs else exprs ++ [e]) rest

/-- What is read from related documents after the first match. -/
def Query.columns (q : Query) : List Aql.Expr :=
  addExprs [] (((q.stages.flatMap Stage.laterFields).filter (·.scope != .root)).map
    FieldPath.expr)

/-- A field after the first match: its column, if it is one. -/
def columnOr (columns : List Aql.Expr) (f : FieldPath) : Aql.Expr :=
  match columns.idxOf? f.expr with
  | some n => .column n
  | none => f.expr

/-! ## Edges and traversals -/

/-- The edges of a hop. -/
def Hop.edges (h : Hop) : Aql.Edges :=
  ⟨h.direction, h.link.collection, h.edgeCollections.tail⟩

def Traversal.step (t : Traversal) (topology : Topology) : Except Error Aql.Step := do
  let hop ← topology.hop t.source t.relationship
  return .traverse t.index t.depth.toNat t.from.var hop.edges

/-! ## Stages as steps -/

namespace Stage

/-- The literals of a filter. -/
def literals : Stage → List Value
  | filter p => p.literals
  | _ => []

/-- The parameters of a filter. -/
def parameters : Stage → List String
  | filter p => p.parameters
  | _ => []

/-- A filter on the root document alone. -/
def isRootFilter : Stage → Bool
  | filter p => p.rootOnly
  | _ => false

/-- Filters and traversals as steps, in order; the first literal has the number `next`. -/
def steps (topology : Topology) (next : Nat) : List Stage → Except Error (List Aql.Step)
  | [] => .ok []
  | filter p :: rest => do
    return .filter (p.test next) :: (← steps topology (next + p.literals.length) rest)
  | traverse t :: rest => do
    let step ← t.step topology
    return step :: (← steps topology next rest)
  | _ :: rest => steps topology next rest

end Stage

/-! ## The two forms -/

namespace Query

/-- Whether the traversals go into a first match. -/
def isJoined (q : Query) (settings : Settings) : Bool :=
  q.hasTraversal && settings.distinctTraversals

/-- The stages of the outer loop and those of the first match. -/
def split (q : Query) (joined : Bool) : List Stage × List Stage :=
  if joined then (q.stages.filter (·.isRootFilter), q.stages.filter (!·.isRootFilter))
  else (q.stages, [])

/-- The clauses of filters and traversals. -/
def matching (q : Query) (topology : Topology) (joined : Bool) :
    Except Error (List Aql.Clause) := do
  let (outer, inner) := q.split joined
  let outerSteps ← Stage.steps topology 0 outer
  if joined then
    let innerSteps ← Stage.steps topology (outer.flatMap Stage.literals).length inner
    return outerSteps.map .step ++ [.firstMatch innerSteps q.columns]
  else return outerSteps.map .step

/-- The literals of a statement in the order of their numbers. -/
def literals (q : Query) (joined : Bool) : List Value :=
  ((q.split joined).1 ++ (q.split joined).2).flatMap Stage.literals

/-- The parameters of a query, each once, in order. -/
def parameters (q : Query) : List String :=
  sortDistinct (q.stages.flatMap Stage.parameters)

end Query

/-! ## Inclusions -/

/-- The clause of an inclusion. -/
def Inclusion.clause (i : Inclusion) (topology : Topology) (entity : String) (index : Nat) :
    Except Error Aql.Clause := do
  let hop ← topology.hop entity i.relationship
  return .neighbours index i.cardinality hop.edges

/-- The clauses of inclusions, numbered from `index`. -/
def inclusionClauses (topology : Topology) (entity : String) (index : Nat) :
    List Inclusion → Except Error (List Aql.Clause)
  | [] => .ok []
  | i :: rest => do
    let clause ← i.clause topology entity index
    return clause :: (← inclusionClauses topology entity (index + 1) rest)

/-- Members of a row for the inclusions of a query. -/
def Query.includedEntries (q : Query) : List (String × Aql.Expr) :=
  q.inclusions.mapIdx fun n i => (i.relationship, .field (.included n) [])

end GraphMapper
