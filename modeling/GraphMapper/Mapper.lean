import GraphMapper.Relation.Resolution
import GraphMapper.Settings

/-! # Mappers

A mapper is a schema whose relationships have been resolved, with its settings. Queries and
mutations are built by a mapper; its schema can no longer change.
-/

namespace GraphMapper

/-- What queries and mutations are built against. -/
structure Mapper where
  schema : Schema
  topology : Topology
  settings : Settings

/-- Ends the registration and resolves all relationships. -/
def Schema.resolve (s : Schema) (settings : Settings) : Except Error Mapper := do
  let topology ← Topology.ofSchema s
  return ⟨s, topology, settings⟩

end GraphMapper
