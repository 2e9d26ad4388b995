import GraphMapper.Mapper
import GraphMapper.Proofs.Relation.Resolved

/-!
# Resolved mappers

A mapper is `Resolved` when its schema was filled by registrations and its topology comes from
resolving that schema. `Mapper.ofEntities` makes one from a list of entities.

The bank at the end is a small catalog for the examples of the modules that follow: persons hold
accounts, an account has one owner, and the two relationships are declared in opposite directions of
one graph.
-/

namespace GraphMapper

open Outcome

/-- A mapper of a registered schema whose relationships have been resolved. -/
structure Mapper.Resolved (m : Mapper) : Prop where
  registered : m.schema.Registered
  resolves : m.schema.resolve m.settings = .ok m

theorem Mapper.Resolved.wellFormed {m : Mapper} (hm : m.Resolved) : m.schema.WellFormed :=
  hm.registered.wellFormed

theorem Mapper.Resolved.ofSchema {m : Mapper} (hm : m.Resolved) :
    Topology.ofSchema m.schema = .ok m.topology := by
  obtain ⟨t, ht, heq⟩ := bind_eq_ok.mp hm.resolves
  have hsame : t = m.topology := congrArg Mapper.topology (pure_eq_ok.mp heq)
  exact hsame ▸ ht

theorem Mapper.Resolved.topology {m : Mapper} (hm : m.Resolved) :
    ∃ ds, m.schema.declarations = .ok ds ∧ m.topology.Resolves m.schema ds :=
  Topology.ofSchema_resolves hm.wellFormed hm.ofSchema

/-! ## Mappers of lists of entities -/

/-- Registers entities one after the other. -/
def Schema.ofEntities (entities : List Entity) : Except Error Schema :=
  entities.foldlM Schema.register {}

/-- Registers entities and resolves their relationships. -/
def Mapper.ofEntities (entities : List Entity) (settings : Settings) : Except Error Mapper := do
  (← Schema.ofEntities entities).resolve settings

theorem Schema.registered_of_ofEntities {entities : List Entity} {s : Schema}
    (h : Schema.ofEntities entities = .ok s) : s.Registered :=
  foldlM_preserves (fun _ _ _ _ hs hstep => hs.register hstep) .empty h

theorem Mapper.resolved_of_ofEntities {entities : List Entity} {settings : Settings} {m : Mapper}
    (h : Mapper.ofEntities entities settings = .ok m) : m.Resolved := by
  obtain ⟨s, hs, hresolve⟩ := bind_eq_ok.mp h
  obtain ⟨t, -, heq⟩ := bind_eq_ok.mp hresolve
  obtain rfl := pure_eq_ok.mp heq
  exact ⟨Schema.registered_of_ofEntities hs, hresolve⟩

/-- The mapper of entities that can be registered and resolved. -/
theorem Mapper.resolved_of_isOk {entities : List Entity} {settings : Settings}
    (h : (Mapper.ofEntities entities settings).isOk = true) :
    ((Mapper.ofEntities entities settings).toOption.getD ⟨{}, {}, {}⟩).Resolved := by
  obtain ⟨m, hm⟩ := exists_of_isOk h
  rw [hm]
  exact Mapper.resolved_of_ofEntities hm

/-! ## A bank -/

namespace Bank

def person : Entity where
  name := "Person"
  collection := some "people"
  attributes := [{ name := "age", type := .integer }]
  relationships := [{
    name := "accounts", target := "Account", graph := some "ownership"
    relatedName := some "holders", cardinality := .many, edgeCollection := some "holds" }]

def account : Entity where
  name := "Account"
  collection := some "accounts"
  attributes := [{ name := "balance", type := .integer }]
  relationships := [{
    name := "owner", target := "Person", graph := some "ownership"
    cardinality := .one, edgeCollection := some "owned_by" }]

/-- The mapper of the bank. -/
def mapper : Mapper :=
  (Mapper.ofEntities [person, account] {}).toOption.getD ⟨{}, {}, {}⟩

theorem mapper_resolved : mapper.Resolved := by
  have hok : (Mapper.ofEntities [person, account] {}).isOk = true := by decide +kernel
  exact Mapper.resolved_of_isOk hok

end Bank

end GraphMapper
