import GraphMapper.Provision.Inventory
import GraphMapper.Schema.Basic

/-! # Plans

A plan compares what a schema needs with what a database has: missing collections are created,
missing graphs are created whole, and in a graph that exists an edge collection is added or its ends
are replaced. Nothing is ever dropped.

Collections come first in a plan, so that every collection a graph names exists by then. A name that
the schema uses for documents and the database for edges, or the other way round, is an error.
-/

namespace GraphMapper

/-- One step of a plan. -/
inductive SchemaChange where
  | createCollection (name : String)
  | createEdgeCollection (name : String)
  | createGraph (definition : GraphDefinition)
  | addEdges (graph : String) (definition : EdgeDefinition)
  | replaceEdges (graph : String) (definition : EdgeDefinition)
  deriving DecidableEq, Repr

/-- The same names, in any order and with any repetition. -/
def sameNames (a b : List String) : Bool := a.all b.contains && b.all a.contains

def EdgeDefinition.sameEnds (a b : EdgeDefinition) : Bool :=
  sameNames a.sources b.sources && sameNames a.targets b.targets

/-- Creates the collections that are missing; none of them may exist as the other sort. -/
def planCollections (create : String → SchemaChange) (present others : List String) :
    List String → Except Error (List SchemaChange)
  | [] => .ok []
  | name :: rest => do
    if others.contains name then throw (.collectionNameCollision name)
    let changes ← planCollections create present others rest
    return if present.contains name then changes else create name :: changes

/-- What an edge collection of an existing graph needs. -/
def planEdges (graph : String) (current : List EdgeDefinition) (wanted : EdgeDefinition) :
    List SchemaChange :=
  match current.find? fun e => e.collection == wanted.collection with
  | none => [.addEdges graph wanted]
  | some found => if found.sameEnds wanted then [] else [.replaceEdges graph wanted]

/-- What a graph needs. -/
def planGraph (existing : Inventory) (wanted : GraphDefinition) : List SchemaChange :=
  match Dict.find? existing.graphs wanted.name with
  | none => [.createGraph wanted]
  | some current => wanted.edges.flatMap (planEdges wanted.name current)

/-- The steps that bring a database in line with a schema, in the order in which they can be run. -/
def planSchema (s : Schema) (t : Topology) (existing : Inventory) :
    Except Error (List SchemaChange) := do
  let documents ← planCollections .createCollection existing.collections existing.edgeCollections
    s.collections
  let definitions := t.definitions
  let edgeNames := sortDistinct (definitions.flatMap fun g => g.edges.map (·.collection))
  let edges ← planCollections .createEdgeCollection existing.edgeCollections existing.collections
    edgeNames
  return documents ++ edges ++ definitions.flatMap (planGraph existing)

end GraphMapper
