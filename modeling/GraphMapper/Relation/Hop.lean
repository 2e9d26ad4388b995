import GraphMapper.Relation.Link

/-! # Hops

A hop is a link in its association with the direction in which it is followed: outbound under the
name of the declaration, inbound under a related name. The records of a hop are those of its own
link and, in the opposite direction, those of the other link of the association, because either of
two paired declarations may have stored a record.
-/

namespace GraphMapper

/-- A link in its association. -/
structure Place where
  association : Association
  link : Link
  deriving DecidableEq, Repr

/-- A name resolved against an entity: a place, and the direction in which it is followed. -/
structure Hop where
  place : Place
  direction : Direction
  deriving DecidableEq, Repr

namespace Hop

def association (h : Hop) : Association := h.place.association

def link (h : Hop) : Link := h.place.link

/-- The entity that the hop leads to. -/
def target (h : Hop) : String :=
  match h.direction with
  | .outbound => h.link.target
  | .inbound => h.link.source

/-- The collection that the hop leads into. -/
def targetCollection (h : Hop) : String :=
  match h.direction with
  | .outbound => h.link.toCollection
  | .inbound => h.link.fromCollection

/-- Seen from its target, a relationship may hold any number of documents. -/
def cardinality (h : Hop) : Cardinality :=
  match h.direction with
  | .outbound => h.link.cardinality
  | .inbound => .many

/-- The other declaration of a bidirectional association. -/
def partner (h : Hop) : Option Link :=
  h.association.links.find? fun l => l.collection != h.link.collection

/-- The edge collections to follow: the hop's own, and the partner's in the opposite direction. -/
def edgeCollections (h : Hop) : List (Direction × String) :=
  (h.direction, h.link.collection) ::
    (h.partner.map fun l => (h.direction.flip, l.collection)).toList

end Hop

end GraphMapper
