import GraphMapper.Relation.Topology

/-! # Graph definitions

A graph definition says which edge collections a named graph has and which document collections each
of them joins. `Topology.definitions` lists what a schema needs.
-/

namespace GraphMapper

/-- An edge collection of a graph and the document collections at its ends. -/
structure EdgeDefinition where
  collection : String
  sources : List String
  targets : List String
  deriving DecidableEq, Repr

structure GraphDefinition where
  name : String
  edges : List EdgeDefinition
  deriving DecidableEq, Repr

/-! ## What a schema needs -/

/-- Merges a link into the ends of its edge collection. -/
def mergeLink (ends : Dict String (List String × List String)) (l : Link) :
    Dict String (List String × List String) :=
  let (sources, targets) := (Dict.find? ends l.collection).getD ([], [])
  Dict.insert ends l.collection
    (insertSorted l.fromCollection sources, insertSorted l.toCollection targets)

/-- The definition of a graph, its edge collections in order. -/
def GraphDefinition.ofAssociations (name : String) (associations : List Association) :
    GraphDefinition where
  name := name
  edges := ((associations.flatMap Association.links).foldl mergeLink []).map fun e =>
    ⟨e.1, e.2.1, e.2.2⟩

/-- The definitions of all graphs, in name order. -/
def Topology.definitions (t : Topology) : List GraphDefinition :=
  t.graphs.map fun g => GraphDefinition.ofAssociations g.1 g.2

end GraphMapper
