import GraphMapper.Document.Handle
import GraphMapper.Json.Basic
import GraphMapper.Schema.Entity

/-! # Errors

Everything that can be refused, by cause. Causes of one class share a constructor of `Error` and
have a type of their own: faults of a declaration, of a query or mutation, of a stored document, and
of a text of settings or of a handle. `Error.kind` says who can mend an error.

Errors of kind `queryConstruction` are found before a statement is sent anywhere.
-/

namespace GraphMapper

/-! ## Causes -/

/-- What is wrong with a declaration. -/
inductive DeclarationFault where
  | entityName (name : String)
  | collectionName (collection entity : String)
  | attributeName (member : Member)
  | attributeTwice (member : Member)
  | defaultType (member : Member) (type : FieldType)
  | relationshipName (member : Member)
  | memberTwice (member : Member)
  | targetName (member : Member) (target : String)
  | graphName (member : Member) (graph : String)
  | relatedName (member : Member) (relatedName : String)
  | edgeCollectionName (member : Member) (collection : String)
  | relatedNameIsMember (member : Member) (relatedName target : String)
  | relatedNameTwice (relatedName target : String)
  deriving DecidableEq, Repr

/-- Two declarations that would share a graph without belonging together. -/
inductive GraphClaim where
  /-- A hint on one declaration is the name derived for another. -/
  | hintAndDerived (hinted derived : Member)
  /-- One name is derived for two pairs of entities. -/
  | derivedTwice (first second : Member)
  deriving DecidableEq, Repr

/-- What is wrong with a query or mutation. -/
inductive QueryFault where
  | emptyProjection
  | emptyOrder
  | emptyGroup
  | relationshipPath (path : String)
  | depthConflict (relationship : String) (existing requested : UInt32)
  | zeroDepth (relationship : String)
  | parameterName (name : String)
  | groupListsDiffer
  | projectionWithAggregate
  | includeWithAggregate
  | orderAfterAggregate (path : String)
  | unboundParameters (names : List String)
  | rowsNotDocuments
  | requiredAttribute (member : Member)
  | updateWithoutKey (entity : String)
  | tooManyTargets (relationship : String) (count : Nat)
  | wrongCollection (relationship expected actual : String)
  | relatedWithoutKey (entity : String)
  | documentWithoutKey (entity : String)
  deriving DecidableEq, Repr

/-- What is wrong with a stored document. -/
inductive DocumentFault where
  | noOrigin
  | unreadableOrigin (id : String)
  | notAnObject
  | missingKey
  | unreadableId (id : Json)
  | foreignId (id : Handle)
  | wrongType (field : String) (type : FieldType)
  | missingAttribute (field : String)
  | nullAttribute (field : String)
  | unreadableHandle (relationship : String) (raw : Json)

/-- What is wrong with a text. -/
inductive TextFault where
  /-- The text of settings is not a record of the expected fields. -/
  | settingsText
  | zeroDepth
  | depthSetting (text : String)
  | distinctSetting (text : String)
  | handle (text : String)
  deriving DecidableEq, Repr

inductive Error where
  | duplicateEntity (name : String)
  | unresolvedTarget (member : Member) (target : String)
  | graphNameCollision (graph : String) (claim : GraphClaim)
  | collectionNameCollision (collection : String)
  | invalidDeclaration (fault : DeclarationFault)
  | unknownEntity (name : String)
  | unknownField (entity path : String)
  | unknownRelationship (entity relationship : String)
  | invalidLimit (count offset : Int64)
  | unsupportedAggregate (name : String)
  | traversalDepthExceeded (requested max : UInt32)
  | typeMismatch (field : String) (expected : FieldType)
  | invalidQuery (fault : QueryFault)
  | unknownParameter (name : String)
  | malformedDocument (entity : String) (fault : DocumentFault)
  | notFound
  | unreadableText (fault : TextFault)
  /-- The database refused a statement. -/
  | storage (text : String)

/-! ## Kinds -/

inductive ErrorKind where
  /-- No mapper comes about. -/
  | declaration
  /-- The caller can mend the query; nothing was sent. -/
  | queryConstruction
  /-- A stored document disagrees with the declarations. -/
  | materialization
  | transport
  deriving DecidableEq, Repr

def ErrorKind.text : ErrorKind → String
  | declaration => "declaration"
  | queryConstruction => "query_construction"
  | materialization => "materialization"
  | transport => "transport"

def Error.kind : Error → ErrorKind
  | duplicateEntity _ | unresolvedTarget _ _ | graphNameCollision _ _ | collectionNameCollision _
  | invalidDeclaration _ => .declaration
  | unknownEntity _ | unknownField _ _ | unknownRelationship _ _ | invalidLimit _ _
  | unsupportedAggregate _ | traversalDepthExceeded _ _ | typeMismatch _ _ | invalidQuery _
  | unknownParameter _ => .queryConstruction
  | malformedDocument _ _ | notFound => .materialization
  | unreadableText _ | storage _ => .transport

end GraphMapper
