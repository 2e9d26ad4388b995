import GraphMapper.Document.Basic
import GraphMapper.Mapper
import GraphMapper.Value.Stored

/-! # Reading stored documents

A stored document is a JSON object. It is read as a document of an entity: its key, every declared
attribute as its type, and a neighbour for each handle that stands under the name of a relation.
Members that the entity does not know are left aside.

The entity is given, or it is the one whose collection the `_id` of the stored document names. A
stored document that disagrees with the declarations is malformed; the first disagreement in
declared order is reported.
-/

namespace GraphMapper

/-- Reads a handle, or names the text that is none. -/
def Handle.parse (s : String) : Except Error Handle :=
  match Handle.parse? s with
  | some h => .ok h
  | none => .error (.unreadableText (.handle s))

/-! ## Reading as an entity -/

namespace Entity

def malformed {α : Type} (e : Entity) (fault : DocumentFault) : Except Error α :=
  .error (.malformedDocument e.name fault)

/-- An `_id`, where there is one, must be a handle into the collection of the entity. -/
def checkId (e : Entity) (stored : Dict String Json) : Except Error Unit :=
  match Dict.find? stored "_id" with
  | none => .ok ()
  | some id =>
    match Handle.ofJson? id with
    | none => e.malformed (.unreadableId id)
    | some handle =>
      if handle.collection = e.collectionName then .ok () else e.malformed (.foreignId handle)

/-- The value of an attribute. -/
def readAttribute (e : Entity) (stored : Dict String Json) (a : Attribute) :
    Except Error Value := do
  let v ← match Dict.find? stored a.name with
    | some raw =>
      match Value.read? a.type raw with
      | some v => .ok v
      | none => e.malformed (.wrongType a.name a.type)
    | none => if a.nullable then .ok .null else e.malformed (.missingAttribute a.name)
  if v.isNull ∧ a.required then e.malformed (.nullAttribute a.name)
  return v

/-- The values of attributes, in declared order. -/
def readAttributes (e : Entity) (stored : Dict String Json) :
    List Attribute → Except Error (List (String × Value))
  | [] => .ok []
  | a :: rest => do
    let v ← e.readAttribute stored a
    return (a.name, v) :: (← e.readAttributes stored rest)

def readNeighbour (e : Entity) (relation : String) (raw : Json) :
    Except Error (Neighbour Document) :=
  match Handle.ofJson? raw with
  | some handle => .ok (.unread handle)
  | none => e.malformed (.unreadableHandle relation raw)

/-- The neighbours under the name of a relation. An array holds many, whatever was declared;
anything else is one handle. -/
def readNeighbours (e : Entity) (relation : String) (cardinality : Cardinality) (raw : Json) :
    Except Error (Neighbours Document) :=
  match raw, cardinality with
  | .array items, _ => do return .many (← items.mapM (e.readNeighbour relation))
  | raw, .one => do return .one (← e.readNeighbour relation raw)
  | raw, .many => do return .many [← e.readNeighbour relation raw]

/-- The relations that the stored document has handles for. -/
def readRelations (e : Entity) (t : Topology) (stored : Dict String Json) :
    List String → Except Error (List (String × Neighbours Document))
  | [] => .ok []
  | name :: rest =>
    match Dict.find? stored name with
    | none => e.readRelations t stored rest
    | some raw => do
      let hop ← t.hop e.name name
      if raw.isNull then e.readRelations t stored rest
      else
        let neighbours ← e.readNeighbours name hop.cardinality raw
        return (name, neighbours) :: (← e.readRelations t stored rest)

/-- The document of an entity that a stored document holds. -/
def read (e : Entity) (t : Topology) (stored : Json) : Except Error Document := do
  match stored with
  | .object members =>
    match (Dict.find? members "_key").bind Json.toString? with
    | none => e.malformed .missingKey
    | some key =>
      e.checkId members
      let attributes ← e.readAttributes members e.attributes
      let relations ← e.readRelations t members (t.relationNames e.name)
      return {
        entity := e.name
        key := some key
        attributes := Dict.ofEntries attributes
        relations := Dict.ofEntries relations }
  | _ => e.malformed .notAnObject

end Entity

/-! ## Choosing the entity -/

namespace Mapper

/-- Reads stored documents of an entity. -/
def readAll (m : Mapper) (entity : String) (stored : List Json) :
    Except Error (List Document) := do
  let e ← m.schema.lookup entity
  stored.mapM (e.read m.topology)

/-- The entity that the `_id` of a stored document names. -/
def originOf (m : Mapper) (stored : Json) : Except Error Entity := do
  match (stored.get? "_id").bind Json.toString? with
  | none => throw (.malformedDocument "?" .noOrigin)
  | some id =>
    match Handle.parse? id with
    | none => throw (.malformedDocument "?" (.unreadableOrigin id))
    | some handle => m.schema.ofCollection handle.collection

/-- Reads a stored document of the entity that it names. -/
def readByOrigin (m : Mapper) (stored : Json) : Except Error Document := do
  let e ← m.originOf stored
  e.read m.topology stored

/-- Reads stored documents, each of the entity that it names. -/
def readAllByOrigin (m : Mapper) (stored : List Json) : Except Error (List Document) :=
  stored.mapM m.readByOrigin

end Mapper

end GraphMapper
