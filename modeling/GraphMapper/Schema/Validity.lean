import GraphMapper.Error.Basic
import GraphMapper.Text.Identifier

/-! # Validity of a declaration

A declaration is valid on its own when all its names are identifiers that nobody reserves, no member
is declared twice, and every default has the type of its attribute. Targets are looked up later,
when all entities are known.

The faults of a declaration are found in a fixed order: names first, then attributes, then
relationships, each in declared order.
-/

namespace GraphMapper

/-- A name that a member may have. -/
def isMemberName (name : String) : Bool :=
  Text.isIdentifier name && !reservedNames.contains name

/-- Refuses with a fault of the declaration unless the test holds. -/
def requireDeclared (test : Bool) (fault : DeclarationFault) : Except Error Unit :=
  if test then .ok () else .error (.invalidDeclaration fault)

namespace Entity

/-- The checks of one attribute, given the names before it. -/
def validateAttribute (e : Entity) (seen : List String) (a : Attribute) : Except Error Unit := do
  let member : Member := ⟨e.name, a.name⟩
  requireDeclared (isMemberName a.name) (.attributeName member)
  requireDeclared (!seen.contains a.name) (.attributeTwice member)
  requireDeclared (a.default.all a.type.accepts) (.defaultType member a.type)

/-- The checks of one relationship, given the names before it. -/
def validateRelationship (e : Entity) (seen : List String) (r : Relationship) :
    Except Error Unit := do
  let member : Member := ⟨e.name, r.name⟩
  requireDeclared (isMemberName r.name) (.relationshipName member)
  requireDeclared (!seen.contains r.name) (.memberTwice member)
  requireDeclared (Text.isIdentifier r.target) (.targetName member r.target)
  requireDeclared (r.graph.all Text.isGraphName) (.graphName member (r.graph.getD ""))
  requireDeclared (r.relatedName.all isMemberName) (.relatedName member (r.relatedName.getD ""))
  requireDeclared (r.edgeCollection.all Text.isCollectionName)
    (.edgeCollectionName member (r.edgeCollection.getD ""))

def validateAttributes (e : Entity) (seen : List String) : List Attribute → Except Error Unit
  | [] => .ok ()
  | a :: rest => do
    e.validateAttribute seen a
    e.validateAttributes (a.name :: seen) rest

def validateRelationships (e : Entity) (seen : List String) :
    List Relationship → Except Error Unit
  | [] => .ok ()
  | r :: rest => do
    e.validateRelationship seen r
    e.validateRelationships (r.name :: seen) rest

/-- The checks of a declaration that need no other one: names first, then attributes, then
relationships, each in declared order. -/
def validate (e : Entity) : Except Error Unit := do
  requireDeclared (Text.isIdentifier e.name) (.entityName e.name)
  requireDeclared (Text.isCollectionName e.collectionName)
    (.collectionName e.collectionName e.name)
  e.validateAttributes [] e.attributes
  e.validateRelationships (e.attributes.map (·.name)).reverse e.relationships

end Entity

end GraphMapper
