import GraphMapper.Aql.Statement
import GraphMapper.Mapper

/-! # Linking documents

Relations are linked, unlinked and assigned by lists of statements to be run in order.

A relation that holds one document loses its edge before it gets another, on either end: linking
sweeps the source's edges when the source sees one document, and the target's edges when the
declaration seen from the target (`Topology.back`) holds one. A sweep covers all edge collections of
the hop, because either of two paired declarations may have stored the edge.
-/

namespace GraphMapper

/-- The end of an edge record at which the hop's own document stands. -/
def Direction.ownEnd : Direction → Aql.EdgeEnd
  | outbound => .source
  | inbound => .target

def Direction.otherEnd (d : Direction) : Aql.EdgeEnd := d.flip.ownEnd

/-- Removes the edges of a document along a hop, or only those to one target. -/
def Hop.sweep (h : Hop) (handle : Handle) (target : Option Handle) : List Statement :=
  h.edgeCollections.map fun (direction, collection) =>
    let own := (direction.ownEnd, Aql.Slot.named "source", handle)
    let ends := own ::
      (target.map fun t => (direction.otherEnd, Aql.Slot.named "target", t)).toList
    Statement.closed (.removeEdges collection (ends.map fun e => (e.1, e.2.1)))
      (ends.map fun e => (e.2.1, e.2.2.toJson))

/-- Inserts an edge along a hop. -/
def Hop.insertEdge (h : Hop) (source target : Handle) : Statement :=
  let (start, stop) := match h.direction with
    | .outbound => (source, target)
    | .inbound => (target, source)
  Statement.closed (.insertEdge (.named "from") (.named "to") h.link.collection)
    [(.named "from", start.toJson), (.named "to", stop.toJson)]

/-- A hop as its target sees it: the declaration behind a related name, or the partner. -/
def Topology.back (t : Topology) (h : Hop) : Except Error (Option Hop) :=
  let link := match h.direction with
    | .inbound => some h.link
    | .outbound => h.partner
  match link with
  | none => .ok none
  | some l => do return some (← t.hop l.source l.relationship)

/-- Inserts an edge after the target has given up its own, if it may have only one. -/
def Topology.connect (t : Topology) (h : Hop) (source target : Handle) :
    Except Error (List Statement) := do
  let cleared := match ← t.back h with
    | some back => if back.cardinality = .one then back.sweep target none else []
    | none => []
  return cleared ++ [h.insertEdge source target]

/-- A target must lie in the collection that the hop leads into. -/
def Hop.checkTarget (h : Hop) (relation : String) (target : Handle) : Except Error Unit :=
  if target.collection = h.targetCollection then .ok ()
  else .error (.invalidQuery (.wrongCollection relation h.targetCollection target.collection))

namespace Mapper

/-- The hop of a relation of the document with a handle. -/
def hopOf (m : Mapper) (source : Handle) (relation : String) : Except Error Hop := do
  let e ← m.schema.ofCollection source.collection
  m.topology.hop e.name relation

/-- Connects a source to a target. -/
def link (m : Mapper) (source : Handle) (relation : String) (target : Handle) :
    Except Error (List Statement) := do
  let hop ← m.hopOf source relation
  hop.checkTarget relation target
  let cleared := if hop.cardinality = .one then hop.sweep source none else []
  return cleared ++ (← m.topology.connect hop source target)

/-- Removes the edge to a target, or all edges of the relation. -/
def unlink (m : Mapper) (source : Handle) (relation : String) (target : Option Handle) :
    Except Error (List Statement) := do
  let hop ← m.hopOf source relation
  if let some t := target then hop.checkTarget relation t
  return hop.sweep source target

/-- Edges to all targets, in order. -/
def connectAll (m : Mapper) (hop : Hop) (source : Handle) (relation : String) :
    List Handle → Except Error (List Statement)
  | [] => .ok []
  | target :: rest => do
    hop.checkTarget relation target
    let connected ← m.topology.connect hop source target
    return connected ++ (← m.connectAll hop source relation rest)

/-- Edges to all targets, after the edges that are there if `clear` says so. -/
def assignEdges (m : Mapper) (source : Handle) (relation : String) (targets : List Handle)
    (clear : Bool) : Except Error (List Statement) := do
  let hop ← m.hopOf source relation
  if hop.cardinality = .one ∧ 1 < targets.length then
    throw (.invalidQuery (.tooManyTargets relation targets.length))
  let cleared := if clear then hop.sweep source none else []
  return cleared ++ (← m.connectAll hop source relation targets)

/-- Replaces all edges of a relation. -/
def assign (m : Mapper) (source : Handle) (relation : String) (targets : List Handle) :
    Except Error (List Statement) :=
  m.assignEdges source relation targets true

end Mapper

end GraphMapper
