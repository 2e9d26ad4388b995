import GraphMapper.Error.Basic
import GraphMapper.Json.Printer

/-! # The wording of errors

One message per cause. Names stand between backticks, members as `Entity.member`, and raw JSON in
its compact form.
-/

namespace GraphMapper

/-- Names in messages stand between backticks. -/
def ticked (s : String) : String := "`" ++ s ++ "`"

def DeclarationFault.text : DeclarationFault → String
  | entityName name => "entity name " ++ ticked name ++ " is not a valid identifier"
  | collectionName collection entity =>
    "collection " ++ ticked collection ++ " of " ++ ticked entity ++
      " is not a valid collection name"
  | attributeName m => "attribute " ++ ticked m.text ++ " is reserved or not a valid identifier"
  | attributeTwice m => "attribute " ++ ticked m.text ++ " is declared twice"
  | defaultType m type => "default of " ++ ticked m.text ++ " is not a " ++ type.text
  | relationshipName m =>
    "relationship " ++ ticked m.text ++ " is reserved or not a valid identifier"
  | memberTwice m => "relationship " ++ ticked m.text ++ " clashes with another member"
  | targetName m target =>
    "relationship " ++ ticked m.text ++ " targets invalid name " ++ ticked target
  | graphName m graph => "graph name " ++ ticked graph ++ " on " ++ ticked m.text ++ " is not valid"
  | relatedName m related =>
    "related name " ++ ticked related ++ " on " ++ ticked m.text ++
      " is reserved or not a valid identifier"
  | edgeCollectionName m collection =>
    "edge collection " ++ ticked collection ++ " on " ++ ticked m.text ++
      " is not a valid collection name"
  | relatedNameIsMember m related target =>
    "related name " ++ ticked related ++ " of " ++ m.text ++ " clashes with a member of " ++
      ticked target
  | relatedNameTwice related target =>
    "related name " ++ ticked related ++ " is declared twice on " ++ ticked target

/-- The two sides of a collision. -/
def GraphClaim.text : GraphClaim → String
  | hintAndDerived hinted derived =>
    "declared graph on " ++ hinted.text ++ " and synthesized name of " ++ derived.text
  | derivedTwice first second => first.text ++ " and " ++ second.text

def QueryFault.text : QueryFault → String
  | emptyProjection => "projection without fields"
  | emptyOrder => "order without fields"
  | emptyGroup => "empty condition group"
  | relationshipPath path => ticked path ++ " names a relationship, not an attribute"
  | depthConflict relationship existing requested =>
    ticked relationship ++ " is already traversed with depth " ++ toString existing.toNat ++
      ", not " ++ toString requested.toNat
  | zeroDepth relationship =>
    "traversal of " ++ ticked relationship ++ " needs a depth of at least 1"
  | parameterName name => ticked name ++ " is not a usable parameter name"
  | groupListsDiffer => "aggregates must share one group-by list"
  | projectionWithAggregate => "projection cannot be combined with an aggregate"
  | includeWithAggregate => "include cannot be combined with an aggregate"
  | orderAfterAggregate path =>
    "cannot order by " ++ ticked path ++ " after aggregating; only group-by fields remain"
  | unboundParameters names => "unbound parameters: " ++ ", ".intercalate names
  | rowsNotDocuments =>
    "fetch needs whole documents; use execute for projections and aggregates"
  | requiredAttribute m => ticked m.text ++ " is required"
  | updateWithoutKey entity => "update of " ++ ticked entity ++ " without a key"
  | tooManyTargets relationship count =>
    ticked relationship ++ " holds a single document, got " ++ toString count
  | wrongCollection relationship expected actual =>
    ticked relationship ++ " points into " ++ ticked expected ++ ", not " ++ ticked actual
  | relatedWithoutKey entity => "related " ++ ticked entity ++ " has no key; insert it first"
  | documentWithoutKey entity => ticked entity ++ " instance has no key"

def DocumentFault.text : DocumentFault → String
  | noOrigin => "document has no `_id`"
  | unreadableOrigin id => "bad `_id` " ++ ticked id
  | notAnObject => "document is not an object"
  | missingKey => "missing `_key`"
  | unreadableId id => "bad `_id` " ++ id.text
  | foreignId id => "`_id` " ++ id.text ++ " belongs to collection " ++ ticked id.collection
  | wrongType field type => ticked field ++ " is not a " ++ type.text
  | missingAttribute field => "missing attribute " ++ ticked field
  | nullAttribute field => ticked field ++ " is null"
  | unreadableHandle relationship raw =>
    ticked relationship ++ " holds a bad handle " ++ raw.text

/-- The environment variables of the settings. -/
def depthVariable : String := "ARANGRAPH_MAX_TRAVERSAL_DEPTH"

def distinctVariable : String := "ARANGRAPH_DISTINCT_TRAVERSALS"

def TextFault.text : TextFault → String
  | settingsText => "not a record of settings"
  | zeroDepth => "max_traversal_depth must be at least 1"
  | depthSetting text => depthVariable ++ " must be a positive integer, got " ++ ticked text
  | distinctSetting text => distinctVariable ++ " must be a boolean, got " ++ ticked text
  | handle text => ticked text ++ " is not a document handle"

/-- The message of an error. -/
def Error.message : Error → String
  | duplicateEntity name => "Entity " ++ ticked name ++ " is already registered"
  | unresolvedTarget m target =>
    "Relationship " ++ ticked m.text ++ " targets unregistered entity " ++ ticked target
  | graphNameCollision graph claim =>
    "Graph name " ++ ticked graph ++ " is claimed by both " ++ claim.text
  | collectionNameCollision collection =>
    "Collection name " ++ ticked collection ++ " is used more than once"
  | invalidDeclaration fault => "Invalid declaration: " ++ fault.text
  | unknownEntity name => "Unknown entity " ++ ticked name
  | unknownField entity path => "Unknown field " ++ ticked path ++ " on entity " ++ ticked entity
  | unknownRelationship entity relationship =>
    "Unknown relationship " ++ ticked relationship ++ " on entity " ++ ticked entity
  | invalidLimit count offset =>
    "Invalid limit: count " ++ toString count.toInt ++ " offset " ++ toString offset.toInt ++
      " (count must be positive, offset non-negative)"
  | unsupportedAggregate name => "Unsupported aggregate function " ++ ticked name
  | traversalDepthExceeded requested max =>
    "Traversal depth " ++ toString requested.toNat ++ " exceeds the configured maximum of " ++
      toString max.toNat
  | typeMismatch field expected =>
    "Type mismatch on " ++ ticked field ++ ": expected " ++ expected.text
  | invalidQuery fault => "Invalid query: " ++ fault.text
  | unknownParameter name => "Unknown query parameter " ++ ticked name
  | malformedDocument entity fault => "Malformed " ++ ticked entity ++ " document: " ++ fault.text
  | notFound => "Not found"
  | unreadableText fault => "Deserialization error: " ++ fault.text
  | storage text => "Storage error: " ++ text

end GraphMapper
