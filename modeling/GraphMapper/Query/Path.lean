import GraphMapper.Mapper
import GraphMapper.Query.Basic

/-! # Resolving paths

A path is a chain of relations, then nothing, the key, an attribute, or names inside an attribute
that holds JSON. It is resolved from left to right; an attribute of a name is found before a
relation. Each relation that it crosses becomes a traversal of the draft, unless it is there
already.

Traversals are shared: one relation from one scope is traversed once in a query, with one depth.
-/

namespace GraphMapper

/-- The query that has been put together so far. -/
structure Draft where
  entity : String
  collection : String
  stages : List Stage := []

namespace Draft

def query (d : Draft) : Query := ⟨d.entity, d.collection, d.stages⟩

def add (d : Draft) (s : Stage) : Draft := { d with stages := d.stages ++ [s] }

def traversals (d : Draft) : List Traversal := d.query.traversals

/-- An empty draft over the documents of an entity. -/
def start (m : Mapper) (entity : String) : Except Error Draft := do
  let e ← m.schema.lookup entity
  return { entity, collection := e.collectionName }

/-! ## Traversals -/

/-- Where a relation leads from a scope: to the traversal that is there already, or to a new one. A
depth that is asked for must be that of the existing traversal. -/
def follow (m : Mapper) (d : Draft) (scope : Scope) (source relationship : String)
    (depth : Option UInt32) : Except Error (Scope × String × Draft) := do
  let hop ← m.topology.hop source relationship
  match d.traversals.find? fun t => t.from = scope ∧ t.relationship = relationship with
  | some existing =>
    match depth with
    | some requested =>
      if requested = existing.depth then return (.traversal existing.index, hop.target, d)
      else throw (.invalidQuery (.depthConflict relationship existing.depth requested))
    | none => return (.traversal existing.index, hop.target, d)
  | none =>
    let depth := depth.getD 1
    if depth = 0 then throw (.invalidQuery (.zeroDepth relationship))
    if m.settings.maxTraversalDepth < depth then
      throw (.traversalDepthExceeded depth m.settings.maxTraversalDepth)
    let index := d.traversals.length
    let traversal : Traversal :=
      ⟨index, scope, source, relationship, hop.target, hop.direction, depth⟩
    return (.traversal index, hop.target, d.add (.traverse traversal))

/-- Follows a chain of relations; the depth is that of the last one. -/
def followChain (m : Mapper) (d : Draft) (scope : Scope) (entity : String) (depth : UInt32) :
    List String → Except Error Draft
  | [] => .ok d
  | segment :: rest => do
    let requested := if rest.isEmpty then some depth else none
    let (scope, entity, d) ← follow m d scope entity segment requested
    followChain m d scope entity depth rest

/-! ## Paths -/

/-- Resolves the rest of a path from a scope at an entity. -/
def resolveFrom (m : Mapper) (path : String) (d : Draft) (scope : Scope) (entity : String) :
    List String → Except Error (FieldPath × Draft)
  | [] => .ok (⟨path, scope, entity, none⟩, d)
  | segment :: rest =>
    if segment = keyField then
      if rest.isEmpty then .ok (⟨path, scope, entity, some ⟨["_key"], .string⟩⟩, d)
      else .error (.unknownField entity path)
    else do
      let e ← m.schema.lookup entity
      match e.attribute? segment with
      | some a =>
        if rest.isEmpty then return (⟨path, scope, entity, some ⟨[segment], a.type⟩⟩, d)
        else if a.type = .json ∧ rest.all Text.isIdentifier then
          return (⟨path, scope, entity, some ⟨segment :: rest, .json⟩⟩, d)
        else throw (.unknownField entity path)
      | none =>
        if rest.isEmpty ∧ (m.topology.hop? entity segment).isNone then
          throw (.unknownField entity path)
        let (scope, entity, d) ← follow m d scope entity segment none
        resolveFrom m path d scope entity rest

/-- Resolves a path; no segment of it may be empty. -/
def resolvePath (m : Mapper) (d : Draft) (path : String) : Except Error (FieldPath × Draft) :=
  let segments := Text.split '.' path
  if segments.contains "" then .error (.unknownField d.entity path)
  else resolveFrom m path d .root d.entity segments

/-- Resolves a path that must end at an attribute. -/
def scalarPath (m : Mapper) (d : Draft) (path : String) : Except Error (FieldPath × Draft) := do
  let (field, d) ← d.resolvePath m path
  if field.attribute?.isNone then throw (.invalidQuery (.relationshipPath path))
  return (field, d)

/-- Resolves several paths, each with the traversals of the ones before it. -/
def scalarPaths (m : Mapper) (d : Draft) : List String → Except Error (List FieldPath × Draft)
  | [] => .ok ([], d)
  | path :: rest => do
    let (field, d) ← d.scalarPath m path
    let (fields, d) ← scalarPaths m d rest
    return (field :: fields, d)

end Draft

end GraphMapper
