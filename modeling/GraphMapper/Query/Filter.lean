import GraphMapper.Aql.Syntax
import GraphMapper.Query.Basic

/-! # Filters as conditions of a statement

A predicate becomes a condition of the same structure. Its literals are numbered in the order in
which they appear, from a number that the caller gives, so that the literals of one predicate follow
those of the ones before it; `Predicate.literals` lists their values in that order.
-/

namespace GraphMapper

/-- The variable of a scope. -/
def Scope.var : Scope → Aql.Var
  | .root => .doc
  | .traversal index => .step index

/-- Where a field is read. -/
def FieldPath.expr (f : FieldPath) : Aql.Expr :=
  .field f.scope.var ((f.attribute?.map (·.segments)).getD [])

/-- The slot of an operand, given the number of the next literal. -/
def Operand.slot (next : Nat) : Operand → Aql.Slot
  | .literal _ => .literal next
  | .parameter name => .named name

/-- A comparison of a field. A part is looked for in a string, and a member in anything else. -/
def Comparison.test (comparison : Comparison) (field : FieldPath) (slot : Aql.Slot) : Aql.Test :=
  match comparison with
  | .equal => .relation field.expr .equal slot
  | .notEqual => .relation field.expr .notEqual slot
  | .lessThan => .relation field.expr .less slot
  | .lessThanOrEqual => .relation field.expr .lessEqual slot
  | .greaterThan => .relation field.expr .greater slot
  | .greaterThanOrEqual => .relation field.expr .greaterEqual slot
  | .contains =>
    if field.attribute?.map (·.type) = some .string then .contains field.expr slot
    else .hasMember field.expr slot
  | .startsWith => .startsWith field.expr slot
  | .isIn => .memberOf field.expr slot

namespace Predicate

mutual
/-- The literals, from left to right. -/
def literals : Predicate → List Value
  | compare _ _ (.literal value) => [value]
  | compare _ _ (.parameter _) => []
  | isNull _ _ => []
  | all members => memberLiterals members
  | any members => memberLiterals members
  | not member => member.literals
def memberLiterals : List Predicate → List Value
  | [] => []
  | p :: rest => p.literals ++ memberLiterals rest
end

mutual
/-- The names of the parameters, from left to right. -/
def parameters : Predicate → List String
  | compare _ _ (.parameter name) => [name]
  | compare _ _ (.literal _) => []
  | isNull _ _ => []
  | all members => memberParameters members
  | any members => memberParameters members
  | not member => member.parameters
def memberParameters : List Predicate → List String
  | [] => []
  | p :: rest => p.parameters ++ memberParameters rest
end

mutual
/-- The condition of a predicate whose first literal has the number `next`. -/
def test (next : Nat) : Predicate → Aql.Test
  | compare field comparison operand => comparison.test field (operand.slot next)
  | isNull field negated => .isNull field.expr negated
  | all members => .all (memberTests next members)
  | any members => .any (memberTests next members)
  | not member => .not (member.test next)
def memberTests (next : Nat) : List Predicate → List Aql.Test
  | [] => []
  | p :: rest => p.test next :: memberTests (next + p.literals.length) rest
end

mutual
/-- Whether only the root document is read. -/
def rootOnly : Predicate → Bool
  | compare field _ _ => field.scope == .root
  | isNull field _ => field.scope == .root
  | all members => membersRootOnly members
  | any members => membersRootOnly members
  | not member => member.rootOnly
def membersRootOnly : List Predicate → Bool
  | [] => true
  | p :: rest => p.rootOnly && membersRootOnly rest
end

end Predicate

end GraphMapper
