import GraphMapper.Relation.Pairing
import GraphMapper.Relation.Topology

/-! # Resolving relationships

Every declaration becomes a link of one association. A declaration without a graph name gets a
derived one.

Names must not meet by accident: a derived graph name may neither be given elsewhere as a hint nor
be derived for another pair of entities, an edge collection may neither be used twice nor be a
document collection, and a related name may neither be a member of the target nor be given there
twice.
-/

namespace GraphMapper

/-- What has been resolved so far. -/
structure Resolution where
  /-- The first declaration that each derived graph name was made for. -/
  derived : Dict String Declaration := []
  /-- Every collection in use, for documents or edges. -/
  collections : List String := []
  topology : Topology := {}

namespace Resolution

/-- The last declaration that gives a graph name as a hint. -/
def hintOwner? (declarations : List Declaration) (graph : String) : Option Declaration :=
  (declarations.filter fun d => d.relationship.graph == some graph).getLast?

/-- The graph of a declaration; a derived name is recorded for its pair of entities. -/
def claimGraph (s : Resolution) (declarations : List Declaration) (d : Declaration) :
    Except Error (Resolution × String × GraphOrigin) :=
  match d.relationship.graph with
  | some graph => .ok (s, graph, .declared)
  | none =>
    let graph := d.derivedGraph
    match hintOwner? declarations graph with
    | some owner =>
      .error (.graphNameCollision graph (.hintAndDerived owner.member d.member))
    | none =>
      match Dict.find? s.derived graph with
      | some first =>
        if first.relationship.target == d.relationship.target &&
            first.source.name == d.source.name then
          .ok (s, graph, .derived)
        else .error (.graphNameCollision graph (.derivedTwice first.member d.member))
      | none => .ok ({ s with derived := Dict.insert s.derived graph d }, graph, .derived)

/-- Records a link of an association; its edge collection must be free. -/
def addLink (a : Association) (s : Resolution) (l : Link) : Except Error Resolution :=
  if s.collections.contains l.collection then
    .error (.collectionNameCollision l.collection)
  else
    .ok { s with
      collections := l.collection :: s.collections
      topology := { s.topology with
        declared := Dict.insert s.topology.declared ⟨l.source, l.relationship⟩ ⟨a, l⟩ } }

/-- Adds the association of a declaration and its partner. -/
def addAssociation (declarations : List Declaration) (s : Resolution)
    (pair : Declaration × Option Declaration) : Except Error Resolution := do
  let (s, graph, origin) ← s.claimGraph declarations pair.1
  let association : Association := ⟨graph, origin, pair.1.link, pair.2.map Declaration.link⟩
  let s ← association.links.foldlM (addLink association) s
  return { s with
    topology := { s.topology with
      associations := s.topology.associations ++ [association] } }

end Resolution

/-- Makes the related name of a declaration, if it has one, a name of its target. -/
def Topology.addRelatedName (t : Topology) (d : Declaration) : Except Error Topology :=
  match d.relationship.relatedName with
  | none => .ok t
  | some related =>
    if d.target.hasMember related then
      .error (.invalidDeclaration (.relatedNameIsMember d.member related d.target.name))
    else
      match Dict.find? t.declared d.member with
      | none => .ok t
      | some place =>
        if Dict.contains t.related ⟨d.target.name, related⟩ then
          .error (.invalidDeclaration (.relatedNameTwice related d.target.name))
        else .ok { t with related := Dict.insert t.related ⟨d.target.name, related⟩ place }

/-- The topology of a schema: associations first, then related names. -/
def Topology.ofSchema (s : Schema) : Except Error Topology := do
  let declarations ← s.declarations
  let resolution ← (pairUp declarations).foldlM (Resolution.addAssociation declarations)
    { collections := s.collections }
  declarations.foldlM Topology.addRelatedName resolution.topology

end GraphMapper
