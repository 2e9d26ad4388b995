import GraphMapper.Value.Basic

/-! # Operations

What a caller asks for, one operation after the other, over paths that nobody has resolved yet. A
filter has a condition, which is a tree of comparisons; a comparison has a literal on its right, or a
parameter that is bound later.
-/

namespace GraphMapper

/-! ## Conditions -/

inductive Comparison where
  | equal
  | notEqual
  | lessThan
  | lessThanOrEqual
  | greaterThan
  | greaterThanOrEqual
  | contains
  | startsWith
  | isIn
  deriving DecidableEq, Repr

/-- The right side of a comparison. -/
inductive Operand where
  | parameter (name : String)
  | literal (value : Value)

inductive Condition where
  | compare (path : String) (comparison : Comparison) (operand : Operand)
  | isNull (path : String) (negated : Bool)
  | all (conditions : List Condition)
  | any (conditions : List Condition)
  | not (condition : Condition)

/-! ## Operations -/

inductive SortDirection where
  | ascending
  | descending
  deriving DecidableEq, Repr

inductive Operation where
  | filter (condition : Condition)
  | project (fields : List String)
  | order (fields : List String) (direction : SortDirection)
  /-- The range of the numbers is checked when the statement is made. -/
  | limit (count offset : Int64)
  | aggregate (function field : String) (groupBy : List String)
  /-- The relationship may be a dotted chain; the depth is that of its last hop. -/
  | traverse (relationship : String) (depth : UInt32)
  | include (relationship : String)

end GraphMapper
