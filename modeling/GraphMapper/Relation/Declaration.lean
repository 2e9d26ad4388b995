import GraphMapper.Relation.Link
import GraphMapper.Schema.Basic
import GraphMapper.Text.Lowercase

/-! # Declarations of relationships

A declaration is a relationship with the entities at its ends. The declarations of a schema are
listed by their entities and names, whatever the order of registration and of the relationships in
an entity.

A declaration need not name its graph and its edge collection. The names that they get then are kept in
the database, so the rule may only change together with `namingVersion`.
-/

namespace GraphMapper

/-! ## Names of graphs and edge collections -/

/-- The version of the naming rule. -/
def namingVersion : Nat := 1

/-- The name of the graph of a relationship that does not name one: `graph_<target>_<source>` in
small letters. -/
def derivedGraphName (source target : String) : String :=
  "graph_" ++ Text.lowercase target ++ "_" ++ Text.lowercase source

/-- The edge collection of a relationship that does not name one. -/
def defaultEdgeCollection (sourceCollection relationship : String) : String :=
  sourceCollection ++ "_" ++ relationship

/-! ## Declarations -/

/-- A relationship with the entities at its ends. -/
structure Declaration where
  source : Entity
  relationship : Relationship
  target : Entity

namespace Declaration

def member (d : Declaration) : Member := ⟨d.source.name, d.relationship.name⟩

/-- Both name the same graph, and each leads to where the other one starts. -/
def pairsWith (a b : Declaration) : Bool :=
  match a.relationship.graph, b.relationship.graph with
  | some g, some g' =>
    g == g' && a.relationship.target == b.source.name && b.relationship.target == a.source.name
  | _, _ => false

def link (d : Declaration) : Link where
  source := d.source.name
  relationship := d.relationship.name
  target := d.target.name
  collection := d.relationship.edgeCollection.getD
    (defaultEdgeCollection d.source.collectionName d.relationship.name)
  fromCollection := d.source.collectionName
  toCollection := d.target.collectionName
  cardinality := d.relationship.cardinality

/-- The graph name that the declaration would get. -/
def derivedGraph (d : Declaration) : String :=
  derivedGraphName d.source.name d.relationship.target

end Declaration

/-! ## The declarations of a schema -/

/-- Puts a relationship before the first one with a later name. -/
def insertByName (r : Relationship) : List Relationship → List Relationship
  | [] => [r]
  | s :: rest =>
    if Text.precedes s.name r.name then s :: insertByName r rest else r :: s :: rest

/-- The relationships of an entity in name order. -/
def Entity.sortedRelationships (e : Entity) : List Relationship :=
  e.relationships.foldr insertByName []

namespace Schema

/-- A relationship with its target, if that is registered. -/
def declaration (s : Schema) (source : Entity) (relationship : Relationship) :
    Except Error Declaration :=
  match s.entity? relationship.target with
  | some target => .ok ⟨source, relationship, target⟩
  | none => .error (.unresolvedTarget ⟨source.name, relationship.name⟩ relationship.target)

/-- All declarations, by entity and name. -/
def declarations (s : Schema) : Except Error (List Declaration) := do
  let perEntity ← s.all.mapM fun e => e.sortedRelationships.mapM (s.declaration e)
  return perEntity.flatten

end Schema

end GraphMapper
