import GraphMapper.Query.Operation
import GraphMapper.Relation.Link

/-! # Statements of the query language

The part of the language that this library writes. A reading statement is one loop over a collection
with clauses and a result; a writing statement is one of six forms on documents and edge records.

Variables are numbered, and values stand in a statement only through slots, which are filled by bind
variables: literals by their number, everything else by name.
-/

namespace GraphMapper.Aql

inductive Var where
  /-- The root document. -/
  | doc
  /-- The first match of the joined loops. -/
  | hit
  /-- An edge record. -/
  | edge
  /-- The document that a traversal has reached. -/
  | step (n : Nat)
  /-- The handles of an inclusion. -/
  | included (n : Nat)
  /-- A neighbour inside an inclusion. -/
  | neighbour (n : Nat)
  | group (n : Nat)
  | total (n : Nat)
  deriving DecidableEq, Repr

/-- A place for a bind variable. -/
inductive Slot where
  | literal (n : Nat)
  | named (name : String)
  deriving DecidableEq, Repr

/-- The bind variable of a slot. -/
def Slot.name : Slot → String
  | literal n => "lit" ++ toString n
  | named name => name

inductive Expr where
  /-- A variable, or what it holds under a chain of attributes. -/
  | field (v : Var) (segments : List String)
  /-- A column of the first match. -/
  | column (n : Nat)
  deriving DecidableEq, Repr

/-! ## Conditions -/

inductive Relation where
  | equal
  | notEqual
  | less
  | lessEqual
  | greater
  | greaterEqual
  deriving DecidableEq, Repr

inductive Test where
  | relation (left : Expr) (op : Relation) (right : Slot)
  /-- The field is one of the values of the slot. -/
  | memberOf (field : Expr) (values : Slot)
  /-- The value of the slot is one of those that the field holds. -/
  | hasMember (field : Expr) (value : Slot)
  | contains (field : Expr) (part : Slot)
  | startsWith (field : Expr) (start : Slot)
  | isNull (field : Expr) (negated : Bool)
  | all (members : List Test)
  | any (members : List Test)
  | not (member : Test)

/-! ## Clauses -/

/-- Edge collections to follow: the first one in the direction of the whole, others in their own. -/
structure Edges where
  direction : Direction
  collection : String
  others : List (Direction × String)
  deriving DecidableEq, Repr

/-- A clause that binds or drops rows. -/
inductive Step where
  | filter (test : Test)
  /-- One row for each document at a distance of at most `depth`. -/
  | traverse (index depth : Nat) (start : Var) (edges : Edges)

inductive Function where
  | count
  | sum
  | average
  | min
  | max
  deriving DecidableEq, Repr

inductive Clause where
  | step (s : Step)
  /-- The columns of the first row of some steps, which must exist. -/
  | firstMatch (steps : List Step) (columns : List Expr)
  /-- The handles of the direct neighbours of the root document. -/
  | neighbours (index : Nat) (cardinality : Cardinality) (edges : Edges)
  | collect (groups : List Expr) (totals : List (Function × Expr))
  | sort (keys : List (Expr × SortDirection))
  | limit (offset count : Nat)

inductive Result where
  | document
  /-- The root document with further members. -/
  | merged (entries : List (String × Expr))
  | object (entries : List (String × Expr))

/-! ## Statements -/

/-- The ends of an edge record. -/
inductive EdgeEnd where
  | source
  | target
  deriving DecidableEq, Repr

inductive Command where
  /-- A loop over a collection. -/
  | read (collection : String) (clauses : List Clause) (result : Result)
  | readDocument (handle : Slot)
  | insertDocument (document : Slot) (collection : String)
  | updateDocument (key patch : Slot) (collection : String)
  | removeDocument (key : Slot) (collection : String)
  | insertEdge (source target : Slot) (collection : String)
  /-- Removes the records of a collection that have the given ends. -/
  | removeEdges (collection : String) (ends : List (EdgeEnd × Slot))

end GraphMapper.Aql
