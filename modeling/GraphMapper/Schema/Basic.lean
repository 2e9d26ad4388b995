import GraphMapper.Schema.Validity

/-! # Schemas

A schema holds the entities that were accepted, by name, and the owner of each collection.
`Schema.register` accepts an entity when its name is new, its declaration is valid on its own and
its collection is free, in this order; otherwise the schema stays as it is.
-/

namespace GraphMapper

/-- The entities that were registered. -/
structure Schema where
  /-- The entities by name. -/
  entities : Dict String Entity := []
  /-- The names of the entities by their collections. -/
  owners : Dict String String := []

namespace Schema

/-- Adds an entity, or says why it cannot be added. -/
def register (s : Schema) (e : Entity) : Except Error Schema := do
  if Dict.contains s.entities e.name then throw (.duplicateEntity e.name)
  e.validate
  let collection := e.collectionName
  if Dict.contains s.owners collection then throw (.collectionNameCollision collection)
  return {
    entities := Dict.insert s.entities e.name e
    owners := Dict.insert s.owners collection e.name }

def entity? (s : Schema) (name : String) : Option Entity := Dict.find? s.entities name

def lookup (s : Schema) (name : String) : Except Error Entity :=
  match s.entity? name with
  | some e => .ok e
  | none => .error (.unknownEntity name)

/-- The entity whose documents a collection holds. -/
def ofCollection? (s : Schema) (collection : String) : Option Entity :=
  (Dict.find? s.owners collection).bind s.entity?

/-- The entity of a collection; a collection of nobody is an unknown entity. -/
def ofCollection (s : Schema) (collection : String) : Except Error Entity :=
  match s.ofCollection? collection with
  | some e => .ok e
  | none => .error (.unknownEntity collection)

def contains (s : Schema) (name : String) : Bool := Dict.contains s.entities name

/-- The entities in name order. -/
def all (s : Schema) : List Entity := Dict.values s.entities

/-- The document collections in order. -/
def collections (s : Schema) : List String := Dict.keys s.owners

def size (s : Schema) : Nat := s.entities.length

end Schema

end GraphMapper
