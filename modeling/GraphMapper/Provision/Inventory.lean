import GraphMapper.Json.Record
import GraphMapper.Provision.Definition

/-! # Inventories

What a database has: document collections, edge collections, and the edge definitions of its graphs.
-/

namespace GraphMapper

/-- The collections and graphs of a database. -/
structure Inventory where
  collections : List String := []
  edgeCollections : List String := []
  graphs : Dict String (List EdgeDefinition) := []

def EdgeDefinition.ofJson? (j : Json) : Option EdgeDefinition :=
  RecordReader.read? (do
    let collection ← RecordReader.field "collection" Json.toString?
    let sources ← RecordReader.field "from" (Json.toList? Json.toString?)
    let targets ← RecordReader.field "to" (Json.toList? Json.toString?)
    return ⟨collection, sources, targets⟩) j

def Inventory.graphsOfJson? (j : Json) : Option (Dict String (List EdgeDefinition)) := do
  (← j.toObject?).mapM fun (name, edges) => do
    return (name, ← Json.toList? EdgeDefinition.ofJson? edges)

def Inventory.ofJson? (j : Json) : Option Inventory :=
  RecordReader.read? (do
    let collections ← RecordReader.fieldOr "collections" [] (Json.toList? Json.toString?)
    let edgeCollections ← RecordReader.fieldOr "edge_collections" [] (Json.toList? Json.toString?)
    let graphs ← RecordReader.fieldOr "graphs" [] Inventory.graphsOfJson?
    return ⟨collections, edgeCollections, graphs⟩) j

end GraphMapper
