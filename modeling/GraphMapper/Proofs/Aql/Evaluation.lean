import GraphMapper.Aql.Statement
import Mathlib.Data.List.Basic
import Mathlib.Logic.Function.Basic

/-!
# What a reading statement returns

A reading statement is read as a nested comprehension. Its clauses turn a table of bindings into
another one: a loop gives one row for each vertex, a filter keeps rows, a first match keeps the
columns of the first row of its steps, and the result makes a value of each row that is left.

All that the database decides is a parameter (`Database`): the documents of a collection, the
vertices that a traversal reaches, what a document holds under an attribute, and the truth of a
condition. That truth depends on the values in the condition alone (`Judgement`): variables and
slots have been replaced by their values, so the number of a literal cannot matter.

The loops, filters and first matches can be read back from the text of a query's statement
(`Mapper.Resolved.statement_passages`).
-/

namespace GraphMapper.Aql

/-! ## Conditions with their values -/

/-- A condition with values in place of expressions and slots. -/
inductive Judgement (V : Type) where
  | relation (left : V) (op : Relation) (right : V)
  | memberOf (field values : V)
  | hasMember (field value : V)
  | contains (field part : V)
  | startsWith (field start : V)
  | isNull (field : V) (negated : Bool)
  | all (members : List (Judgement V))
  | any (members : List (Judgement V))
  | not (member : Judgement V)

namespace Test

variable {V : Type} (value : Expr → V) (slot : Slot → V)

mutual
/-- The condition with the values of its expressions and slots. -/
def judged : Test → Judgement V
  | relation left op right => .relation (value left) op (slot right)
  | memberOf field values => .memberOf (value field) (slot values)
  | hasMember field item => .hasMember (value field) (slot item)
  | contains field part => .contains (value field) (slot part)
  | startsWith field start => .startsWith (value field) (slot start)
  | isNull field negated => .isNull (value field) negated
  | all members => .all (memberJudged members)
  | any members => .any (memberJudged members)
  | not member => .not member.judged
def memberJudged : List Test → List (Judgement V)
  | [] => []
  | t :: rest => t.judged :: memberJudged rest
end

end Test

/-! ## Databases -/

/-- Documents, their connections, and what the operators of the language make of values. -/
structure Database (V : Type) where
  null : V
  /-- The value of a literal. -/
  literal : Json → V
  /-- What a value holds under an attribute. -/
  member : V → String → V
  accepts : Judgement V → Bool
  documents : String → List V
  /-- The vertices of the traversal of an index, up to a depth, along edges from a vertex. -/
  reached : Nat → Nat → Edges → V → List V
  /-- The vertices of the inclusion of an index. -/
  adjacent : Nat → Edges → V → List V
  distinct : List V → List V
  array : List V → V
  object : List (String × V) → V
  merge : V → V → V
  /-- Whether the first of two rows with these sort keys may stand before the second. -/
  precedes : List (V × SortDirection) → List (V × SortDirection) → Bool
  /-- Groups with their totals, from the group values and the aggregated values of each row. -/
  grouped : List Function → List (List V × List V) → List (List V × List V)

/-- The values of the variables; those of the first match are columns. -/
@[ext] structure Bindings (V : Type) where
  value : Var → V
  columns : List V := []

variable {V : Type} (db : Database V)

namespace Bindings

/-- The bindings of the root loop. -/
def root (document : V) : Bindings V where
  value v := if v = .doc then document else db.null

def set (b : Bindings V) (v : Var) (x : V) : Bindings V :=
  { b with value := Function.update b.value v x }

/-- The value of an expression. -/
def eval (b : Bindings V) : Expr → V
  | .field v segments => segments.foldl db.member (b.value v)
  | .column n => b.columns[n]?.getD db.null

end Bindings

/-! ## Clauses -/

variable (slot : Slot → V)

/-- The rows that a step makes of one. -/
def Step.rows (b : Bindings V) : Step → List (Bindings V)
  | filter test => if db.accepts (test.judged (b.eval db) slot) then [b] else []
  | traverse index depth start edges =>
    (db.reached index depth edges (b.value start)).map (b.set (.step index))

/-- Steps one inside the other. -/
def stepRows : List Step → Bindings V → List (Bindings V)
  | [], b => [b]
  | s :: rest, b => (s.rows db slot b).flatMap (stepRows rest)

/-- The handles of an inclusion. -/
def included (index : Nat) (cardinality : Cardinality) (edges : Edges) (document : V) : V :=
  let handles := db.distinct ((db.adjacent index edges document).map (db.member · "_id"))
  match cardinality with
  | .one => handles.head?.getD db.null
  | .many => db.array handles

/-- The row of a group. -/
def groupBindings (group : List V × List V) : Bindings V where
  value
    | .group n => group.1[n]?.getD db.null
    | .total n => group.2[n]?.getD db.null
    | _ => db.null

namespace Clause

/-- The table after a clause. -/
def table (rows : List (Bindings V)) : Clause → List (Bindings V)
  | step s => rows.flatMap fun b => s.rows db slot b
  | firstMatch steps columns => rows.filterMap fun b =>
    (stepRows db slot steps b).head?.map fun found =>
      { b with columns := columns.map (found.eval db) }
  | neighbours index cardinality edges => rows.map fun b =>
    b.set (.included index) (included db index cardinality edges (b.value .doc))
  | collect groups totals =>
    (db.grouped (totals.map (·.1)) (rows.map fun b =>
      (groups.map (b.eval db), totals.map fun t => b.eval db t.2))).map (groupBindings db)
  | sort keys =>
    let keyed := fun b : Bindings V => keys.map fun k => (b.eval db k.1, k.2)
    rows.mergeSort fun b b' => db.precedes (keyed b) (keyed b')
  | limit offset count => (rows.drop offset).take count

/-- The table after all clauses. -/
def tables (rows : List (Bindings V)) (clauses : List Clause) : List (Bindings V) :=
  clauses.foldl (fun rows c => c.table db slot rows) rows

end Clause

/-- The value that is returned for a row. -/
def Result.value (b : Bindings V) : Result → V
  | document => b.value .doc
  | merged entries => db.merge (b.value .doc) (db.object (entries.map fun e => (e.1, b.eval db e.2)))
  | object entries => db.object (entries.map fun e => (e.1, b.eval db e.2))

namespace Command

/-- The collection of the root loop. -/
def collection? : Command → Option String
  | read collection _ _ => some collection
  | _ => none

/-- What a reading statement returns when the root loop runs over the given documents. -/
def rowsOf (roots : List V) : Command → List V
  | read _ clauses result =>
    (Clause.tables db slot (roots.map (Bindings.root db)) clauses).map (result.value db)
  | _ => []

end Command

end Aql

namespace Statement

variable {V : Type} (db : Aql.Database V) (parameters : String → V) (st : Statement)

/-- The value of a slot: a literal of the statement, or else the parameter of that name. -/
def slotValue (slot : Aql.Slot) : V :=
  match Dict.find? st.bindVars slot.name with
  | some json => db.literal json
  | none => parameters slot.name

/-- What the statement returns for the given root documents. -/
def rowsOf (roots : List V) : List V :=
  st.command.rowsOf db (st.slotValue db parameters) roots

/-- What the statement returns. -/
def rows : List V :=
  st.rowsOf db parameters ((st.command.collection?.map db.documents).getD [])

end Statement

namespace Aql

variable {V : Type} (db : Database V) (slot : Slot → V)

/-! ## Small lemmas -/

@[simp] theorem Bindings.set_value (b : Bindings V) (v : Var) (x : V) (w : Var) :
    (b.set v x).value w = if w = v then x else b.value w := by
  simp [Bindings.set, Function.update_apply]

@[simp] theorem Bindings.root_doc (document : V) :
    (Bindings.root db document).value .doc = document := rfl

namespace Clause

@[simp] theorem tables_nil (rows : List (Bindings V)) : tables db slot rows [] = rows := rfl

@[simp] theorem tables_cons (rows : List (Bindings V)) (c : Clause) (rest : List Clause) :
    tables db slot rows (c :: rest) = tables db slot (c.table db slot rows) rest := rfl

@[simp] theorem tables_append (rows : List (Bindings V)) (first rest : List Clause) :
    tables db slot rows (first ++ rest) = tables db slot (tables db slot rows first) rest :=
  List.foldl_append

/-- Steps as clauses are nested loops. -/
theorem tables_steps (rows : List (Bindings V)) (steps : List Step) :
    tables db slot rows (steps.map .step) = rows.flatMap (stepRows db slot steps) := by
  induction steps generalizing rows with
  | nil => simp [stepRows]
  | cons s rest ih =>
    rw [List.map_cons, tables_cons, ih, table, List.flatMap_assoc]
    rfl

end Clause

end GraphMapper.Aql
