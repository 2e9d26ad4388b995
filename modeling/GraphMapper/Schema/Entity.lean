import GraphMapper.Schema.Attribute
import GraphMapper.Text.Lowercase

/-! # Entities

An `Entity` declares the shape of the documents of one collection: scalar attributes and directed
relationships to other entities. Relationships name their target, which may be declared later.
-/

namespace GraphMapper

/-- The attribute that every entity has without declaring it: its key. -/
def keyField : String := "id"

/-- Names that members may not have: the key's, and those that the database keeps for itself. -/
def reservedNames : List String := [keyField, "_key", "_id", "_from", "_to", "_rev"]

/-! ## Relationships -/

/-- How many documents a relationship leads to. -/
inductive Cardinality where
  | one
  | many
  deriving DecidableEq, Repr

def Cardinality.text : Cardinality → String
  | one => "one"
  | many => "many"

/-- A named link from the declaring entity to `target`. -/
structure Relationship where
  name : String
  target : String
  /-- Declarations in opposite directions that name the same graph belong together. -/
  graph : Option String := none
  /-- The name under which the target sees the relationship from its end. -/
  relatedName : Option String := none
  cardinality : Cardinality := .one
  edgeCollection : Option String := none
  deriving DecidableEq, Repr

/-! ## Entities -/

structure Entity where
  name : String
  collection : Option String := none
  attributes : List Attribute := []
  relationships : List Relationship := []

namespace Entity

/-- The declared collection, or else the name of the entity in small letters. -/
def collectionName (e : Entity) : String := e.collection.getD (Text.lowercase e.name)

def attribute? (e : Entity) (name : String) : Option Attribute :=
  e.attributes.find? fun a => a.name == name

def relationship? (e : Entity) (name : String) : Option Relationship :=
  e.relationships.find? fun r => r.name == name

/-- Whether the entity has an attribute or a relationship of that name. -/
def hasMember (e : Entity) (name : String) : Bool :=
  (e.attribute? name).isSome || (e.relationship? name).isSome

end Entity

/-- A member of an entity, written `Entity.member` in messages. -/
structure Member where
  entity : String
  name : String
  deriving DecidableEq, Repr

def Member.text (m : Member) : String := m.entity ++ "." ++ m.name

/-- Members are listed by entity, then by name. -/
instance : Precedence Member where
  precedes a b :=
    Text.precedes a.entity b.entity || (a.entity == b.entity && Text.precedes a.name b.name)

end GraphMapper
