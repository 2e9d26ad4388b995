import GraphMapper.Proofs.Provision.Definitions
import GraphMapper.Proofs.Schema.Arrangement
import GraphMapper.Provision.Plan

/-!
# Relationships of entities in another order

The declarations of a schema are listed by entities and names, so that nothing that is made from them
depends on the order in which they were given. Every step of resolving gives for a schema whose
relationships stand in name order what it gives for the schema itself, and the topologies are equal
(`Topology.ofSchema_arranged`): what is left of a declaration in a topology is its link, and the
order of relationships is no part of that.
-/

namespace GraphMapper

open Outcome

/-! ## Declarations -/

/-- The declaration with the relationships of its ends in name order. -/
def Declaration.arranged (d : Declaration) : Declaration :=
  ⟨d.source.arranged, d.relationship, d.target.arranged⟩

theorem Entity.rearranges_arranged (e : Entity) : e.Rearranges e.arranged :=
  ⟨rfl, rfl, rfl, e.sortedRelationships_perm.symm⟩

/-- An entity has its members in whatever order. -/
theorem Entity.hasMember_arranged (e : Entity) (name : String) :
    e.arranged.hasMember name = e.hasMember name := by
  have hrelationships : (e.arranged.relationship? name).isSome = (e.relationship? name).isSome := by
    rw [relationship?, relationship?, List.isSome_find?, List.isSome_find?]
    exact e.sortedRelationships_perm.any_eq
  rw [hasMember, hasMember, hrelationships]
  rfl

namespace Schema

variable {s : Schema}

theorem entity?_arranged (s : Schema) (name : String) :
    s.arranged.entity? name = (s.entity? name).map Entity.arranged :=
  Dict.find?_mapValues _ _ _

theorem all_arranged (s : Schema) : s.arranged.all = s.all.map Entity.arranged := by
  simp [all, arranged, Dict.values, Dict.mapValues]

theorem declaration_arranged (s : Schema) (e : Entity) (r : Relationship) :
    s.arranged.declaration e.arranged r = (s.declaration e r).map Declaration.arranged := by
  rw [declaration, declaration, entity?_arranged]
  cases s.entity? r.target <;> rfl

/-- The declarations are the same ones in the same order. -/
theorem declarations_arranged (h : ∀ e ∈ s.all, (e.relationships.map (·.name)).Nodup) :
    s.arranged.declarations = s.declarations.map (List.map Declaration.arranged) := by
  have hinner : ∀ e ∈ s.all, e.arranged.sortedRelationships.mapM (s.arranged.declaration e.arranged) =
      (e.sortedRelationships.mapM (s.declaration e)).map (List.map Declaration.arranged) := by
    intro e he
    rw [← e.rearranges_arranged.sortedRelationships_eq (h e he)]
    -- The relationships themselves stay what they are; only the ends of a declaration change.
    conv_lhs => rw [← List.map_id e.sortedRelationships]
    exact mapM_map fun r _ => s.declaration_arranged e r
  rw [declarations, declarations, all_arranged, mapM_map hinner, bind_map, map_bind]
  congr 1
  funext perEntity
  exact congrArg Except.ok List.map_flatten.symm

end Schema

/-! ## Pairs -/

theorem extractFirst_map {α β : Type} (f : α → β) (test : β → Bool) (as : List α) :
    extractFirst test (as.map f) =
      (extractFirst (fun a => test (f a)) as).map (Prod.map f (List.map f)) := by
  induction as with
  | nil => rfl
  | cons a rest ih =>
    rw [List.map_cons, extractFirst, extractFirst]
    split
    · rfl
    · rw [ih]
      cases extractFirst (fun a => test (f a)) rest <;> rfl

theorem pairUp_arranged (ds : List Declaration) : pairUp (ds.map Declaration.arranged) =
    (pairUp ds).map (Prod.map Declaration.arranged (Option.map Declaration.arranged)) := by
  induction ds using pairUp.induct with
  | case1 => simp [pairUp]
  | case2 d rest partner others hfound ih =>
    have hfound' := extractFirst_map Declaration.arranged d.arranged.pairsWith rest
    change _ = (extractFirst d.pairsWith rest).map _ at hfound'
    rw [hfound] at hfound'
    rw [List.map_cons, pairUp_cons_of_some hfound', pairUp_cons_of_some hfound, ih]
    rfl
  | case3 d rest hnone ih =>
    have hnone' := extractFirst_map Declaration.arranged d.arranged.pairsWith rest
    change _ = (extractFirst d.pairsWith rest).map _ at hnone'
    rw [hnone] at hnone'
    rw [List.map_cons, pairUp_cons_of_none hnone', pairUp_cons_of_none hnone, ih]
    rfl

/-! ## Associations -/

namespace Resolution

/-- What has been resolved, with the relationships of all entities in name order. -/
def arranged (s : Resolution) : Resolution :=
  { s with derived := Dict.mapValues Declaration.arranged s.derived }

theorem hintOwner?_arranged (ds : List Declaration) (graph : String) :
    hintOwner? (ds.map Declaration.arranged) graph =
      (hintOwner? ds graph).map Declaration.arranged := by
  rw [hintOwner?, hintOwner?, List.filter_map, List.getLast?_map]
  rfl

theorem claimGraph_arranged (s : Resolution) (ds : List Declaration) (d : Declaration) :
    s.arranged.claimGraph (ds.map Declaration.arranged) d.arranged =
      (s.claimGraph ds d).map (Prod.map arranged id) := by
  have hgraph : d.arranged.derivedGraph = d.derivedGraph := rfl
  have hderived : s.arranged.derived = Dict.mapValues Declaration.arranged s.derived := rfl
  have hrelationship : d.arranged.relationship = d.relationship := rfl
  unfold claimGraph
  rw [hrelationship, hgraph]
  dsimp only
  rw [hintOwner?_arranged, hderived, Dict.find?_mapValues]
  cases d.relationship.graph with
  | some graph => rfl
  | none =>
    cases hintOwner? ds d.derivedGraph with
    | some owner => rfl
    | none =>
      cases Dict.find? s.derived d.derivedGraph with
      | none =>
        have hinsert := Dict.insert_mapValues Declaration.arranged s.derived d.derivedGraph d
        exact congrArg (fun derived => Except.ok (Resolution.mk derived _ _, _)) hinsert
      | some first =>
        -- The test reads the names of both ends, and these do not change.
        change (if (first.relationship.target == d.relationship.target &&
          first.source.name == d.source.name) = true then _ else _) = Except.map _ (ite _ _ _)
        rw [apply_ite (Except.map _)]
        rfl

theorem addLink_arranged (a : Association) (s : Resolution) (l : Link) :
    addLink a s.arranged l = (addLink a s l).map arranged := by
  unfold addLink
  by_cases htaken : s.collections.contains l.collection = true
  · rw [if_pos htaken]
    exact if_pos htaken
  · rw [if_neg htaken]
    exact if_neg htaken

theorem addLinks_arranged (a : Association) (s : Resolution) (ls : List Link) :
    ls.foldlM (addLink a) s.arranged = (ls.foldlM (addLink a) s).map arranged := by
  conv_lhs => rw [← List.map_id ls]
  exact foldlM_map (fun s l _ => addLink_arranged a s l) s

theorem addAssociation_arranged (ds : List Declaration) (s : Resolution)
    (pair : Declaration × Option Declaration) :
    addAssociation (ds.map Declaration.arranged) s.arranged
        (Prod.map Declaration.arranged (Option.map Declaration.arranged) pair) =
      (addAssociation ds s pair).map arranged := by
  obtain ⟨d, partner⟩ := pair
  have hpartner : (partner.map Declaration.arranged).map Declaration.link =
      partner.map Declaration.link := Option.map_map ..
  unfold addAssociation
  rw [map_bind]
  change s.arranged.claimGraph (ds.map Declaration.arranged) d.arranged >>= _ = _
  rw [claimGraph_arranged, bind_map]
  congr 1
  funext ⟨claimed, graph, origin⟩
  dsimp only [Prod.map]
  rw [hpartner]
  let association : Association := ⟨graph, origin, d.link, partner.map Declaration.link⟩
  change association.links.foldlM (addLink association) claimed.arranged >>= _ = _
  rw [addLinks_arranged, bind_map, map_bind]
  rfl

end Resolution

/-! ## Related names -/

theorem Topology.addRelatedName_arranged (t : Topology) (d : Declaration) :
    t.addRelatedName d.arranged = t.addRelatedName d := by
  have hrelationship : d.arranged.relationship = d.relationship := rfl
  have htarget : d.arranged.target = d.target.arranged := rfl
  unfold addRelatedName
  rw [hrelationship, htarget]
  cases d.relationship.relatedName with
  | none => rfl
  | some related =>
    dsimp only
    rw [d.target.hasMember_arranged related]
    rfl

/-- A topology does not depend on the order of relationships. -/
theorem Topology.ofSchema_arranged {s : Schema}
    (h : ∀ e ∈ s.all, (e.relationships.map (·.name)).Nodup) :
    Topology.ofSchema s.arranged = Topology.ofSchema s := by
  unfold ofSchema
  rw [s.declarations_arranged h, bind_map]
  congr 1
  funext ds
  rw [pairUp_arranged]
  have hstart : (⟨[], s.arranged.collections, {}⟩ : Resolution) =
    Resolution.arranged ⟨[], s.collections, {}⟩ := rfl
  rw [hstart, foldlM_map fun s pair _ => Resolution.addAssociation_arranged ds s pair, bind_map]
  congr 1
  funext resolution
  rw [List.foldlM_map]
  exact congrArg (fun step => ds.foldlM step resolution.topology)
    (funext fun t => funext t.addRelatedName_arranged)

/-! ## Registering in another order -/

/-- What a caller can see of the relations of a mapper is the same: the associations in their order,
the hops of all names, the graphs, and the plan for any database. -/
structure Mapper.Alike (m m' : Mapper) : Prop where
  associations : m.topology.associations = m'.topology.associations
  hop : ∀ entity name, m.topology.hop entity name = m'.topology.hop entity name
  definitions : m.topology.definitions = m'.topology.definitions
  plan : ∀ existing, planSchema m.schema m.topology existing =
    planSchema m'.schema m'.topology existing

theorem Mapper.Alike.of_eq {m m' : Mapper} (htopology : m.topology = m'.topology)
    (howners : m.schema.owners = m'.schema.owners) : m.Alike m' where
  associations := by rw [htopology]
  hop _ _ := by rw [htopology]
  definitions := by rw [htopology]
  plan existing := by
    have hcollections : m.schema.collections = m'.schema.collections :=
      congrArg Dict.keys howners
    rw [planSchema, planSchema, hcollections, htopology]

namespace Schema

theorem relationship_names_nodup {es : List Entity} {s : Schema} (h : ofEntities es = .ok s) :
    ∀ e ∈ s.all, (e.relationships.map (·.name)).Nodup :=
  fun e he => Entity.relationship_names_nodup ((registered_of_ofEntities h).wellFormed.valid e he)

/-- Entities may be registered in any order and may declare their relationships in any order: the
same registrations succeed, and resolving has one outcome. -/
theorem resolve_reordered {es es' : List Entity} (h : Entity.Reordered es es') :
    ((∃ s, ofEntities es = .ok s) ↔ ∃ s', ofEntities es' = .ok s') ∧
      ∀ s s', ofEntities es = .ok s → ofEntities es' = .ok s' → ∀ settings,
        Agree Mapper.Alike (s.resolve settings) (s'.resolve settings) := by
  refine ⟨⟨fun ⟨s, hs⟩ => exists_ofEntities_of_reordered h hs,
    fun ⟨s', hs'⟩ => exists_ofEntities_of_reordered h.symm hs'⟩, ?_⟩
  intro s s' hs hs' settings
  have hsame := arranged_eq_of_reordered h hs hs'
  have howners : s.owners = s'.owners := congrArg (·.owners) hsame
  have htopology : Topology.ofSchema s = Topology.ofSchema s' := by
    rw [← Topology.ofSchema_arranged (relationship_names_nodup hs), hsame,
      Topology.ofSchema_arranged (relationship_names_nodup hs')]
  rw [resolve, resolve, htopology]
  cases Topology.ofSchema s' with
  | error e => exact .error e
  | ok t => exact .ok (.of_eq rfl howners)

end Schema

/-! ## A library -/

namespace Library

def books : Relationship where
  name := "books"
  target := "Book"
  graph := some "authorship"
  cardinality := .many

def mentor : Relationship where
  name := "mentor"
  target := "Author"
  relatedName := some "pupils"

def authors : Relationship where
  name := "authors"
  target := "Author"
  graph := some "authorship"
  cardinality := .many

def sequel : Relationship where
  name := "sequel"
  target := "Book"

/-- Authors and books, who wrote what being declared at both ends. -/
def entities : List Entity :=
  [{ name := "Author", relationships := [mentor, books] },
    { name := "Book", relationships := [sequel, authors] }]

/-- The same with everything in the opposite order. -/
def reversed : List Entity :=
  [{ name := "Book", relationships := [authors, sequel] },
    { name := "Author", relationships := [books, mentor] }]

theorem entities_reordered : Entity.Reordered entities reversed := by
  refine ⟨_, .swap _ _ _, .cons ?book (.cons ?author .nil)⟩
  case book => exact ⟨rfl, rfl, rfl, .swap _ _ _⟩
  case author => exact ⟨rfl, rfl, rfl, .swap _ _ _⟩

end Library

/-- The library resolves to three associations, registered in either order. -/
theorem Schema.resolve_reordered_library :
    Entity.Reordered Library.entities Library.reversed ∧ ∃ m m',
      Mapper.ofEntities Library.entities {} = .ok m ∧
        Mapper.ofEntities Library.reversed {} = .ok m' ∧
          m.topology.associations.length = 3 ∧ m.Alike m' := by
  have hthree : (Mapper.ofEntities Library.entities {}).toOption.map
      (·.topology.associations.length) = some 3 := by decide +kernel
  have hreordered := resolve_reordered Library.entities_reordered
  generalize hm : Mapper.ofEntities Library.entities {} = outcome at hthree
  cases outcome with
  | error e => cases hthree
  | ok m =>
    obtain ⟨s, hs, hresolve⟩ := bind_eq_ok.mp hm
    obtain ⟨s', hs'⟩ := hreordered.1.mp ⟨s, hs⟩
    have hagree := hreordered.2 s s' hs hs' {}
    rw [hresolve] at hagree
    generalize hm' : s'.resolve {} = other at hagree
    cases hagree with
    | ok halike =>
      exact ⟨Library.entities_reordered, m, _, rfl, bind_eq_ok.mpr ⟨s', hs', hm'⟩,
        Option.some.inj hthree, halike⟩

end GraphMapper
