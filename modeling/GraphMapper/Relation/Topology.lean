import GraphMapper.Error.Basic
import GraphMapper.Relation.Hop

/-! # The topology

All associations of a schema with two indexes. A name of an entity is either a declared
relationship, which is followed outbound, or the related name of a relationship that leads to the
entity, which is followed inbound. `Topology.hop` finds the name in that order.
-/

namespace GraphMapper

/-- How the entities of a schema are related. -/
structure Topology where
  associations : List Association := []
  /-- Declared relationships by source entity and name. -/
  declared : Dict Member Place := []
  /-- Relationships by target entity and related name. -/
  related : Dict Member Place := []

namespace Topology

/-- The association of a declared relationship. -/
def association (t : Topology) (source relationship : String) : Except Error Association :=
  match Dict.find? t.declared ⟨source, relationship⟩ with
  | some place => .ok place.association
  | none => .error (.unknownRelationship source relationship)

/-- A name of an entity: a declared relationship, or else a related name. -/
def hop? (t : Topology) (entity name : String) : Option Hop :=
  match Dict.find? t.declared ⟨entity, name⟩ with
  | some place => some ⟨place, .outbound⟩
  | none => (Dict.find? t.related ⟨entity, name⟩).map (⟨·, .inbound⟩)

def hop (t : Topology) (entity name : String) : Except Error Hop :=
  match t.hop? entity name with
  | some h => .ok h
  | none => .error (.unknownRelationship entity name)

/-- The names of an entity that `hop` finds: declared ones in order, then related ones in order. -/
def relationNames (t : Topology) (entity : String) : List String :=
  ((Dict.keys t.declared ++ Dict.keys t.related).filter (·.entity == entity)).map (·.name)

def links (t : Topology) : List Link := t.associations.flatMap Association.links

/-- Links whose records start at documents of the entity. -/
def outgoing (t : Topology) (entity : String) : List Link :=
  t.links.filter (·.source == entity)

/-- Links whose records end at documents of the entity. -/
def incoming (t : Topology) (entity : String) : List Link :=
  t.links.filter (·.target == entity)

/-- The associations of each graph, in the order of the graph names. -/
def graphs (t : Topology) : Dict String (List Association) :=
  t.associations.foldl
    (fun d a => Dict.insert d a.graph ((Dict.find? d a.graph).getD [] ++ [a])) []

end Topology

end GraphMapper
