import GraphMapper.Schema.Entity

/-! # Links and associations

A `Link` is one stored direction: the edge collection whose records lead from documents of the
source to documents of the target. An `Association` puts one link into a named graph, or two links
that are declared in opposite directions and belong together.
-/

namespace GraphMapper

inductive Direction where
  | outbound
  | inbound
  deriving DecidableEq, Repr

def Direction.flip : Direction → Direction
  | outbound => inbound
  | inbound => outbound

/-- One relationship declaration with its edge collection and the collections that it joins. -/
structure Link where
  source : String
  relationship : String
  target : String
  collection : String
  fromCollection : String
  toCollection : String
  cardinality : Cardinality
  deriving DecidableEq, Repr

/-- Where the name of a graph comes from. -/
inductive GraphOrigin where
  | declared
  | derived
  deriving DecidableEq, Repr

/-- One or two links of a named graph that belong together. -/
structure Association where
  graph : String
  origin : GraphOrigin
  forward : Link
  /-- The declaration in the opposite direction. -/
  reverse : Option Link
  deriving DecidableEq, Repr

namespace Association

def links (a : Association) : List Link := a.forward :: a.reverse.toList

def isBidirectional (a : Association) : Bool := a.reverse.isSome

end Association

end GraphMapper
