import GraphMapper.Document.Basic
import GraphMapper.Mutation.Edges
import GraphMapper.Value.Stored

/-! # Storing documents

Documents are inserted, updated and removed by lists of statements to be run in order, and read by
one statement. A document's edges are removed before the document, so a removal that stops early
leaves no edge without its ends.
-/

namespace GraphMapper

/-! ## Members -/

/-- The value must fit the attribute; a required one is never null. -/
def Attribute.check (a : Attribute) (e : Entity) (v : Value) : Except Error Unit :=
  if v.isNull ∧ a.required then .error (.invalidQuery (.requiredAttribute ⟨e.name, a.name⟩))
  else if a.type.accepts v then .ok ()
  else .error (.typeMismatch a.name a.type)

/-- The value of a new document: the one given, the default, or null where that is allowed. -/
def Attribute.initial (a : Attribute) (e : Entity) (given : Option Value) : Except Error Value :=
  match given, a.default with
  | some v, _ => .ok v
  | none, some v => .ok v
  | none, none =>
    if a.nullable then .ok .null
    else .error (.invalidQuery (.requiredAttribute ⟨e.name, a.name⟩))

/-- A document may only have declared attributes. -/
def Entity.checkKnown (e : Entity) (attributes : Dict String Value) : Except Error Unit :=
  match List.find? (fun a => (e.attribute? a.1).isNone) attributes with
  | some (name, _) => .error (.unknownField e.name name)
  | none => .ok ()

/-- The members of a new document: its attributes in declared order. -/
def Entity.initialMembers (e : Entity) (given : Dict String Value) :
    List Attribute → Except Error (List (String × Json))
  | [] => .ok []
  | a :: rest => do
    let v ← a.initial e (Dict.find? given a.name)
    a.check e v
    return (a.name, v.toJson) :: (← e.initialMembers given rest)

/-- The members of a patch: the given attributes in name order. -/
def Entity.patchMembers (e : Entity) : Dict String Value → Except Error (List (String × Json))
  | [] => .ok []
  | (name, v) :: rest =>
    match e.attribute? name with
    | some a => do
      a.check e v
      return (name, v.toJson) :: (← e.patchMembers rest)
    | none => e.patchMembers rest

namespace Mapper

/-! ## Edges of a document -/

/-- The handle of a neighbour; a document must have been stored before it can be one. -/
def handleOfNeighbour (m : Mapper) : Neighbour Document → Except Error Handle
  | .unread handle => .ok handle
  | .fetched document => do
    let e ← m.schema.lookup document.entity
    match document.key with
    | some key => return ⟨e.collectionName, key⟩
    | none => throw (.invalidQuery (.relatedWithoutKey document.entity))

/-- The edges of all relations of a document, in name order. -/
def relationEdges (m : Mapper) (source : Handle) (clear : Bool) :
    Dict String (Neighbours Document) → Except Error (List Statement)
  | [] => .ok []
  | (relation, neighbours) :: rest => do
    let targets ← neighbours.toList.mapM m.handleOfNeighbour
    let edges ← m.assignEdges source relation targets clear
    return edges ++ (← m.relationEdges source clear rest)

/-- Removes all edges of a document in an edge collection, at one end. -/
def detach (handle : Handle) (stop : Aql.EdgeEnd) (l : Link) : Statement :=
  Statement.closed (.removeEdges l.collection [(stop, .named "handle")])
    [(.named "handle", handle.toJson)]

/-! ## Statements -/

/-- Stores a new document and the edges of its relations. `freshKey` is used if the document has no
key. -/
def insert (m : Mapper) (freshKey : String) (d : Document) : Except Error (List Statement) := do
  let e ← m.schema.lookup d.entity
  e.checkKnown d.attributes
  let key := d.key.getD freshKey
  let members ← e.initialMembers d.attributes e.attributes
  let stored := Json.ofMembers (("_key", .string key) :: members)
  let inserted := Statement.closed (.insertDocument (.named "doc") e.collectionName)
    [(.named "doc", stored)]
  return inserted :: (← m.relationEdges ⟨e.collectionName, key⟩ false d.relations)

/-- Changes the given attributes and replaces the edges of the given relations. -/
def update (m : Mapper) (d : Document) : Except Error (List Statement) := do
  let e ← m.schema.lookup d.entity
  match d.key with
  | none => throw (.invalidQuery (.updateWithoutKey e.name))
  | some key =>
    e.checkKnown d.attributes
    let patch ← e.patchMembers d.attributes
    let updated := Statement.closed
      (.updateDocument (.named "key") (.named "patch") e.collectionName)
      [(.named "key", .string key), (.named "patch", Json.ofMembers patch)]
    return updated :: (← m.relationEdges ⟨e.collectionName, key⟩ true d.relations)

/-- Removes a document after the edges that leave it and those that enter it. -/
def remove (m : Mapper) (entity key : String) : Except Error (List Statement) := do
  let e ← m.schema.lookup entity
  let handle : Handle := ⟨e.collectionName, key⟩
  let leaving := (m.topology.outgoing e.name).map (detach handle .source)
  let entering := (m.topology.incoming e.name).map (detach handle .target)
  let removed := Statement.closed (.removeDocument (.named "key") e.collectionName)
    [(.named "key", .string key)]
  return leaving ++ entering ++ [removed]

/-- Reads the document of a handle, which must lie in a collection of the schema. -/
def read (m : Mapper) (handle : Handle) : Except Error Statement := do
  let _ ← m.schema.ofCollection handle.collection
  return Statement.closed (.readDocument (.literal 0)) [(.literal 0, handle.toJson)]

/-- The handle under which a document is stored. -/
def handleOf (m : Mapper) (d : Document) : Except Error Handle := do
  let e ← m.schema.lookup d.entity
  match d.key with
  | some key => return ⟨e.collectionName, key⟩
  | none => throw (.invalidQuery (.documentWithoutKey e.name))

end Mapper

end GraphMapper
