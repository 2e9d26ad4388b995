import GraphMapper.Query.Path
import GraphMapper.Query.Typing

/-! # Drafting queries

`Draft.apply` adds one operation to a draft: it resolves the paths, adds the traversals that they
need and that are not there yet, and then the stage of the operation itself. The first operation
that fails ends the drafting; its error is the outcome whatever comes after.
-/

namespace GraphMapper

namespace Draft

/-! ## Stages -/

mutual
/-- Resolves the paths of a condition. -/
def predicate (m : Mapper) (d : Draft) : Condition → Except Error (Predicate × Draft)
  | .compare path comparison operand => do
    let (field, d) ← d.scalarPath m path
    operand.check field comparison
    return (.compare field comparison operand, d)
  | .isNull path negated => do
    let (field, d) ← d.scalarPath m path
    return (.isNull field negated, d)
  | .all conditions => do
    if conditions.isEmpty then throw (.invalidQuery .emptyGroup)
    let (members, d) ← predicates m d conditions
    return (.all members, d)
  | .any conditions => do
    if conditions.isEmpty then throw (.invalidQuery .emptyGroup)
    let (members, d) ← predicates m d conditions
    return (.any members, d)
  | .not condition => do
    let (member, d) ← predicate m d condition
    return (.not member, d)
def predicates (m : Mapper) (d : Draft) : List Condition → Except Error (List Predicate × Draft)
  | [] => .ok ([], d)
  | condition :: rest => do
    let (member, d) ← predicate m d condition
    let (members, d) ← predicates m d rest
    return (member :: members, d)
end

/-- Resolves projected paths; a path that was projected before is left out. -/
def projectPaths (m : Mapper) (d : Draft) (seen : List String) :
    List String → Except Error (List FieldPath × Draft)
  | [] => .ok ([], d)
  | path :: rest => do
    let (field, d) ← d.resolvePath m path
    if seen.contains path then projectPaths m d seen rest
    else
      let (fields, d) ← projectPaths m d (path :: seen) rest
      return (field :: fields, d)

/-- The draft with one more operation. -/
def apply (m : Mapper) (d : Draft) : Operation → Except Error Draft
  | .filter condition => do
    let (predicate, d) ← d.predicate m condition
    return d.add (.filter predicate)
  | .project paths => do
    let (fields, d) ← d.projectPaths m [] paths
    if fields.isEmpty then throw (.invalidQuery .emptyProjection)
    return d.add (.project fields)
  | .order paths direction => do
    if paths.isEmpty then throw (.invalidQuery .emptyOrder)
    let (fields, d) ← d.scalarPaths m paths
    return d.add (.order fields direction)
  | .limit count offset => return d.add (.limit count offset)
  | .aggregate function path groupBy => do
    let (field, d) ← d.scalarPath m path
    let (groups, d) ← d.scalarPaths m groupBy
    return d.add (.aggregate ⟨function, field, groups⟩)
  | .traverse relationship depth =>
    d.followChain m .root d.entity depth (Text.split '.' relationship)
  | .include relationship => do
    let hop ← m.topology.hop d.entity relationship
    if d.query.inclusions.any fun i => i.relationship = relationship then return d
    return d.add (.include ⟨relationship, hop.target, hop.direction, hop.cardinality⟩)

end Draft

/-- The query of a list of operations over an entity. -/
def Mapper.query (m : Mapper) (entity : String) (ops : List Operation) :
    Except Error Query := do
  let draft ← Draft.start m entity
  return (← ops.foldlM (Draft.apply m) draft).query

end GraphMapper
