import GraphMapper.Query.Operation
import GraphMapper.Relation.Link

/-! # Queries

A query whose paths have been resolved against a schema. Its stages stand in the order in which the
operations put them there, and every relation that a path crosses is a traversal before the stage
that reads from it.

The traversals of a query are numbered from zero. A `Scope` is where a field is read: at the root
document or at the document that a traversal has reached.
-/

namespace GraphMapper

inductive Scope where
  | root
  | traversal (index : Nat)
  deriving DecidableEq, Repr

/-- An attribute of a document, or a place inside one that holds JSON. -/
structure AttributePath where
  segments : List String
  type : FieldType
  deriving DecidableEq, Repr

/-- A resolved path. -/
structure FieldPath where
  /-- The path as the caller wrote it. -/
  path : String
  scope : Scope
  /-- The entity at the scope. -/
  entity : String
  /-- Nothing if the path leads to the whole document. -/
  attribute? : Option AttributePath
  deriving DecidableEq, Repr

inductive Predicate where
  | compare (field : FieldPath) (comparison : Comparison) (operand : Operand)
  | isNull (field : FieldPath) (negated : Bool)
  | all (members : List Predicate)
  | any (members : List Predicate)
  | not (member : Predicate)

structure Traversal where
  index : Nat
  «from» : Scope
  /-- The entity at `from`. -/
  source : String
  relationship : String
  /-- The entity that is reached. -/
  target : String
  direction : Direction
  depth : UInt32
  deriving DecidableEq, Repr

structure Aggregation where
  /-- The name of the function as given; it is looked up when the statement is made. -/
  function : String
  field : FieldPath
  groupBy : List FieldPath
  deriving DecidableEq, Repr

/-- Handles of related documents that come along with each root document. -/
structure Inclusion where
  relationship : String
  target : String
  direction : Direction
  cardinality : Cardinality
  deriving DecidableEq, Repr

/-- One step of a query. -/
inductive Stage where
  | filter (predicate : Predicate)
  | project (fields : List FieldPath)
  | order (fields : List FieldPath) (direction : SortDirection)
  | limit (count offset : Int64)
  | aggregate (aggregation : Aggregation)
  | traverse (traversal : Traversal)
  | include (inclusion : Inclusion)

structure Query where
  entity : String
  collection : String
  stages : List Stage

/-! ## Parts of a query -/

namespace Stage

def traversal? : Stage → Option Traversal
  | traverse t => some t
  | _ => none

def inclusion? : Stage → Option Inclusion
  | .include i => some i
  | _ => none

def predicate? : Stage → Option Predicate
  | filter p => some p
  | _ => none

/-- Whether the stage gives rows another shape than whole documents. -/
def reshapes : Stage → Bool
  | project _ => true
  | aggregate _ => true
  | _ => false

end Stage

namespace Query

def traversals (q : Query) : List Traversal := q.stages.filterMap Stage.traversal?

def inclusions (q : Query) : List Inclusion := q.stages.filterMap Stage.inclusion?

def hasTraversal (q : Query) : Bool := !q.traversals.isEmpty

/-- Whether the rows are whole root documents. -/
def returnsDocuments (q : Query) : Bool := !q.stages.any Stage.reshapes

end Query

end GraphMapper
