import GraphMapper.Proofs.Relation.Accounts
import GraphMapper.Proofs.Relation.Arrangement

/-!
# Which schemas can be resolved

Resolving checks names one after the other, each against those that came before it. What the checks
amount to does not depend on that order (`Schema.Resolvable`): derived graph names are told apart
from given ones and stand for one pair of entities each, edge collections are told apart from each
other and from the document collections, and related names are new to their targets.

Two declarations that belong together give their graph, so that the pairs claim the derived names of
all declarations (`mem_claims_pairUp`); hence only the declarations matter, and not the pairs that
are made of them.
-/

namespace GraphMapper

open Outcome

/-! ## The names of a schema -/

/-- The edge collection of a relationship: the one that it names, or else the default one. -/
def Entity.edgeCollection (e : Entity) (r : Relationship) : String :=
  r.edgeCollection.getD (defaultEdgeCollection e.collectionName r.name)

namespace Schema

/-- The edge collections of all relationships. -/
def edgeCollections (s : Schema) : List String :=
  s.all.flatMap fun e => e.relationships.map e.edgeCollection

/-- The related names of all relationships, as members of their targets. -/
def relatedMembers (s : Schema) : List Member :=
  s.all.flatMap fun e => e.relationships.filterMap fun r => r.relatedName.map (Member.mk r.target)

/-- No derived graph name is given anywhere. -/
def HintsApart (s : Schema) : Prop :=
  ∀ e ∈ s.all, ∀ r ∈ e.relationships, r.graph = none →
    ∀ e' ∈ s.all, ∀ r' ∈ e'.relationships, r'.graph ≠ some (derivedGraphName e.name r.target)

/-- A derived graph name stands for one pair of entities. -/
def DerivedApart (s : Schema) : Prop :=
  ∀ e ∈ s.all, ∀ r ∈ e.relationships, r.graph = none →
    ∀ e' ∈ s.all, ∀ r' ∈ e'.relationships, r'.graph = none →
      derivedGraphName e.name r.target = derivedGraphName e'.name r'.target →
        e.name = e'.name ∧ r.target = r'.target

/-- No related name is a member of its target. -/
def RelatedApart (s : Schema) : Prop :=
  ∀ e ∈ s.all, ∀ r ∈ e.relationships, ∀ name ∈ r.relatedName,
    ∀ target ∈ s.all, target.name = r.target → name ∉ target.memberNames

/-- No two names of a schema meet that have to be told apart. -/
structure Resolvable (s : Schema) : Prop where
  targets : ∀ e ∈ s.all, ∀ r ∈ e.relationships, s.contains r.target = true
  hints : s.HintsApart
  derived : s.DerivedApart
  edgeCollections : s.edgeCollections.Nodup
  documents : ∀ e ∈ s.all, e.collectionName ∉ s.edgeCollections
  related : s.RelatedApart
  relatedOnce : s.relatedMembers.Nodup

end Schema

/-! ## The declarations of a schema -/

namespace Schema

variable {s : Schema} {ds : List Declaration}

/-- The edge collections of the relationships are those of the declarations. -/
theorem edgeCollections_perm (h : s.declarations = .ok ds) :
    (ds.map (·.link.collection)).Perm s.edgeCollections := by
  have hmap := map_declarations Entity.edgeCollection h
  change ds.map (·.link.collection) = _ at hmap
  rw [hmap]
  exact List.Perm.flatMap_left _ fun e _ => e.sortedRelationships_perm.map _

/-- The related names of the relationships are those of the declarations. -/
theorem WellFormed.relatedMembers_perm (hs : s.WellFormed) (h : s.declarations = .ok ds) :
    (ds.filterMap Declaration.related?).Perm s.relatedMembers := by
  have hrelated : ds.map Declaration.related? =
      ds.map fun d => d.relationship.relatedName.map (Member.mk d.relationship.target) := by
    refine List.map_congr_left fun d hd => ?_
    obtain ⟨-, -, htarget⟩ := (mem_declarations_iff h).mp hd
    rw [Declaration.related?, (hs.entity?_eq_some_iff.mp htarget).2]
  have hmap := map_declarations
    (fun _ r => r.relatedName.map (Member.mk r.target)) h
  have hfilter : ∀ (α : Type) (as : List α) (f : α → Option Member),
      as.filterMap f = (as.map f).filterMap id := by
    intro α as f
    rw [List.filterMap_map]
    rfl
  rw [hfilter, hrelated, hmap, List.flatMap_def, List.filterMap_flatten, List.map_map,
    ← List.flatMap_def]
  refine List.Perm.flatMap_left _ fun e _ => ?_
  rw [Function.comp_apply, ← hfilter]
  exact e.sortedRelationships_perm.filterMap _

theorem hintsApart_iff (h : s.declarations = .ok ds) : s.HintsApart ↔
    ∀ c ∈ ds.flatMap Declaration.claims, Resolution.hintOwner? ds c.1 = none := by
  have hgiven : ∀ graph, Resolution.hintOwner? ds graph = none ↔
      ∀ e ∈ s.all, ∀ r ∈ e.relationships, r.graph ≠ some graph := fun graph =>
    Resolution.hintOwner?_eq_none_iff.trans
      (forall_declarations_iff (P := fun _ r => r.graph ≠ some graph) h)
  rw [HintsApart, ← forall_declarations_iff h]
  simp only [hgiven, List.mem_flatMap, Declaration.mem_claims, forall_exists_index, and_imp]
  constructor
  · rintro hall c d hd hgraph rfl
    exact hall d hd hgraph
  · intro hall d hd hgraph
    exact hall _ d hd hgraph rfl

theorem derivedApart_iff (h : s.declarations = .ok ds) :
    s.DerivedApart ↔ Consistent (ds.flatMap Declaration.claims) := by
  rw [DerivedApart, ← forall_declarations_iff h]
  simp only [Consistent, List.mem_flatMap, Declaration.mem_claims, forall_exists_index, and_imp]
  constructor
  · rintro hall c d hd hgraph rfl c' d' hd' hgraph' rfl heq
    obtain ⟨hsource', hr', -⟩ := (mem_declarations_iff h).mp hd'
    exact Prod.ext_iff.mpr (hall d hd hgraph _ hsource' _ hr' hgraph' heq)
  · intro hall d hd hgraph e' he' r' hr' hgraph' heq
    obtain ⟨d', hd', rfl, rfl⟩ := exists_declaration h he' hr'
    exact Prod.mk.inj (hall _ d hd hgraph rfl _ d' hd' hgraph' rfl heq)

theorem WellFormed.relatedApart_iff (hs : s.WellFormed) (h : s.declarations = .ok ds) :
    s.RelatedApart ↔
      ∀ d ∈ ds, ∀ name ∈ d.relationship.relatedName, name ∉ d.target.memberNames := by
  rw [RelatedApart, ← forall_declarations_iff h]
  refine forall₂_congr fun d hd => forall₂_congr fun name _ => ?_
  obtain ⟨-, -, htarget⟩ := (mem_declarations_iff h).mp hd
  constructor
  · intro hall
    obtain ⟨hmem, hname⟩ := hs.entity?_eq_some_iff.mp htarget
    exact hall _ hmem hname
  · intro hfree target hmem hname
    have hsame := htarget.symm.trans (hs.entity?_eq_some_iff.mpr ⟨hmem, hname⟩)
    exact Option.some.inj hsame ▸ hfree

/-- The pairs of a schema are free when the names of graphs and of edge collections do not meet. -/
theorem WellFormed.free_pairUp_iff (hs : s.WellFormed) (h : s.declarations = .ok ds) :
    Resolution.Free ds { collections := s.collections } (pairUp ds) ↔
      s.HintsApart ∧ s.DerivedApart ∧ s.edgeCollections.Nodup ∧
        ∀ e ∈ s.all, e.collectionName ∉ s.edgeCollections := by
  have hcollections : (((pairUp ds).flatMap pairMembers).map (·.link.collection) ++
      s.collections).Nodup ↔ s.edgeCollections.Nodup ∧
        ∀ e ∈ s.all, e.collectionName ∉ s.edgeCollections := by
    have hperm := (((pairUp_perm ds).map (·.link.collection)).trans (edgeCollections_perm h))
    have howners : s.collections.Nodup := hs.owners_nodup
    rw [(hperm.append_right _).nodup_iff, List.nodup_append']
    simp only [howners, true_and, List.disjoint_right, hs.mem_collections_iff,
      forall_exists_index, and_imp, forall_apply_eq_imp_iff₂]
  rw [hintsApart_iff h, derivedApart_iff h, ← hcollections]
  constructor
  · rintro ⟨hhints, hderived, hnodup⟩
    refine ⟨fun c hc => hhints c (mem_claims_pairUp.mpr hc), ?_, hnodup⟩
    exact hderived.mono fun c hc => List.mem_append_left _ (mem_claims_pairUp.mpr hc)
  · rintro ⟨hhints, hderived, hnodup⟩
    refine ⟨fun c hc => hhints c (mem_claims_pairUp.mp hc), ?_, hnodup⟩
    exact hderived.mono fun c hc =>
      mem_claims_pairUp.mp ((List.mem_append.mp hc).resolve_right List.not_mem_nil)

/-- The declarations of a schema give a topology when their names do not meet. -/
theorem WellFormed.exists_topology_iff (hs : s.WellFormed) (h : s.declarations = .ok ds) :
    (∃ resolution, (pairUp ds).foldlM (Resolution.addAssociation ds)
      { collections := s.collections } = .ok resolution ∧
        ∃ t, ds.foldlM Topology.addRelatedName resolution.topology = .ok t) ↔
      Resolution.Free ds { collections := s.collections } (pairUp ds) ∧ s.RelatedApart ∧
        s.relatedMembers.Nodup := by
  have hinit : Resolution.Free ds { collections := s.collections } [] :=
    ⟨fun _ hc => absurd hc List.not_mem_nil, fun _ hc => absurd hc List.not_mem_nil,
      hs.owners_nodup⟩
  have hnames : ∀ resolution, (pairUp ds).foldlM (Resolution.addAssociation ds)
      { collections := s.collections } = .ok resolution →
        ((∃ t, ds.foldlM Topology.addRelatedName resolution.topology = .ok t) ↔
          s.RelatedApart ∧ s.relatedMembers.Nodup) := by
    intro resolution hrun
    have hempty : Dict.keys resolution.topology.related = [] := by
      rw [(Resolution.run_adds hrun).related]
      rfl
    rw [hs.relatedApart_iff h, ← (hs.relatedMembers_perm h).nodup_iff,
      Topology.exists_addRelatedNames_iff (fun d => Resolution.member_mem_declared hrun)
        (hempty ▸ List.nodup_nil), hempty, List.append_nil]
  rw [← Resolution.exists_run_iff hinit]
  constructor
  · rintro ⟨resolution, hrun, hrelated⟩
    exact ⟨⟨resolution, hrun⟩, (hnames _ hrun).mp hrelated⟩
  · rintro ⟨⟨resolution, hrun⟩, hrelated⟩
    exact ⟨resolution, hrun, (hnames _ hrun).mpr hrelated⟩

/-- A registered schema gives a topology exactly when its names do not meet. -/
theorem WellFormed.exists_ofSchema_iff (hs : s.WellFormed) :
    (∃ t, Topology.ofSchema s = .ok t) ↔ s.Resolvable := by
  unfold Topology.ofSchema
  simp only [exists_bind_iff]
  constructor
  · rintro ⟨ds, hds, hrun⟩
    obtain ⟨hfree, hrelated, honce⟩ := (hs.exists_topology_iff hds).mp hrun
    obtain ⟨hhints, hderived, hcollections, hdocuments⟩ := (hs.free_pairUp_iff hds).mp hfree
    exact ⟨exists_declarations_iff.mp ⟨ds, hds⟩, hhints, hderived, hcollections, hdocuments,
      hrelated, honce⟩
  · intro hresolvable
    obtain ⟨ds, hds⟩ := exists_declarations_iff.mpr hresolvable.targets
    refine ⟨ds, hds, (hs.exists_topology_iff hds).mpr ⟨?_, hresolvable.related,
      hresolvable.relatedOnce⟩⟩
    exact (hs.free_pairUp_iff hds).mpr ⟨hresolvable.hints, hresolvable.derived,
      hresolvable.edgeCollections, hresolvable.documents⟩

end Schema

/-! ## Graphs of associations -/

/-- An association comes from a declaration, which tells its graph and its ends. -/
theorem Topology.Resolves.exists_forward {t : Topology} {s : Schema} {ds : List Declaration}
    (ht : t.Resolves s ds) {a : Association} (ha : a ∈ t.associations) :
    ∃ d ∈ ds, a.graph = d.graph ∧ a.origin = d.origin ∧ a.forward = d.link := by
  rw [ht.associations_eq] at ha
  obtain ⟨pair, hpair, rfl⟩ := List.mem_map.mp ha
  refine ⟨pair.1, ?_, rfl, rfl, rfl⟩
  apply (pairUp_perm ds).mem_iff.mp
  exact List.mem_flatMap.mpr ⟨pair, hpair, List.mem_cons_self⟩

/-- An association of a derived graph shares it with associations of the same entities only. -/
theorem Schema.Resolvable.derived_shared {s : Schema} (hresolvable : s.Resolvable)
    (hs : s.WellFormed) {ds : List Declaration} (hds : s.declarations = .ok ds) {t : Topology}
    (ht : t.Resolves s ds) {a b : Association} (ha : a ∈ t.associations)
    (hb : b ∈ t.associations) (horigin : a.origin = .derived) (hgraph : b.graph = a.graph) :
    b.origin = .derived ∧ b.forward.source = a.forward.source ∧
      b.forward.target = a.forward.target := by
  obtain ⟨d, hd, hdgraph, hdorigin, hdlink⟩ := ht.exists_forward ha
  obtain ⟨d', hd', hdgraph', hdorigin', hdlink'⟩ := ht.exists_forward hb
  obtain ⟨hsource, hr, htarget⟩ := (mem_declarations_iff hds).mp hd
  obtain ⟨hsource', hr', htarget'⟩ := (mem_declarations_iff hds).mp hd'
  have hnone : d.relationship.graph = none := by
    rw [hdorigin, Declaration.origin] at horigin
    cases hgiven : d.relationship.graph with
    | none => rfl
    | some graph => simp [hgiven] at horigin
  have hname : d'.graph = d.derivedGraph := by
    rw [← hdgraph', hgraph, hdgraph, Declaration.graph, hnone, Option.getD_none]
  have hnone' : d'.relationship.graph = none := by
    cases hgiven : d'.relationship.graph with
    | none => rfl
    | some graph =>
      rw [Declaration.graph, hgiven, Option.getD_some] at hname
      have hmet := hgiven.trans (congrArg some hname)
      exact absurd hmet (hresolvable.hints _ hsource _ hr hnone _ hsource' _ hr')
  rw [Declaration.graph, hnone', Option.getD_none] at hname
  obtain ⟨hends, hends'⟩ :=
    hresolvable.derived _ hsource' _ hr' hnone' _ hsource _ hr hnone hname
  refine ⟨?_, ?_, ?_⟩
  · rw [hdorigin', Declaration.origin, hnone']
    rfl
  · rw [hdlink', hdlink]
    exact hends
  · rw [hdlink', hdlink]
    change d'.target.name = d.target.name
    rw [(hs.entity?_eq_some_iff.mp htarget').2, (hs.entity?_eq_some_iff.mp htarget).2, hends']

/-- Resolving accepts exactly the registered schemas whose names do not meet. Derived graphs are
then told apart from given ones, and from those of other entities. -/
theorem Schema.Registered.resolve_iff {s : Schema} (hs : s.Registered) (settings : Settings) :
    ((∃ m, s.resolve settings = .ok m) ↔ s.Resolvable) ∧
      ∀ m, s.resolve settings = .ok m →
        ∀ a ∈ m.topology.associations, a.origin = .derived →
          ∀ b ∈ m.topology.associations, b.graph = a.graph →
            b.origin = .derived ∧ b.forward.source = a.forward.source ∧
              b.forward.target = a.forward.target := by
  have hiff : (∃ m, s.resolve settings = .ok m) ↔ s.Resolvable := by
    rw [← hs.wellFormed.exists_ofSchema_iff, resolve, exists_bind_iff]
    constructor
    · rintro ⟨t, ht, -⟩
      exact ⟨t, ht⟩
    · rintro ⟨t, ht⟩
      exact ⟨t, ht, _, rfl⟩
  refine ⟨hiff, fun m hm a ha horigin b hb hgraph => ?_⟩
  obtain ⟨t, ht, heq⟩ := bind_eq_ok.mp hm
  obtain rfl := pure_eq_ok.mp heq
  obtain ⟨ds, hds, hresolves⟩ := Topology.ofSchema_resolves hs.wellFormed ht
  exact (hiff.mp ⟨_, hm⟩).derived_shared hs.wellFormed hds hresolves ha hb horigin hgraph

/-! ## The library, and names that meet -/

/-- The library as it is registered. -/
def Library.schema : Schema := (Schema.ofEntities Library.entities).toOption.getD {}

/-- Two pairs of entities for which the same graph name is derived. -/
def Alphabet.entities : List Entity :=
  [{ name := "Alpha" }, { name := "Alpha_beta" },
    { name := "Beta_gamma", relationships := [{ name := "alpha", target := "Alpha" }] },
    { name := "Gamma", relationships := [{ name := "parent", target := "Alpha_beta" }] }]

def Alphabet.schema : Schema := (Schema.ofEntities Alphabet.entities).toOption.getD {}

theorem Schema.registered_of_isOk {es : List Entity} (h : (ofEntities es).isOk = true) :
    ((ofEntities es).toOption.getD {}).Registered := by
  obtain ⟨s, hs⟩ := exists_of_isOk h
  rw [hs]
  exact registered_of_ofEntities hs

/-- The names of the library can be resolved; those of the alphabet meet. -/
theorem Schema.resolve_iff_library :
    Library.schema.Registered ∧ Library.schema.Resolvable ∧
      Alphabet.schema.Registered ∧ ¬ Alphabet.schema.Resolvable := by
  have hlibrary : Library.schema.Registered := registered_of_isOk (by decide +kernel)
  have halphabet : Alphabet.schema.Registered := registered_of_isOk (by decide +kernel)
  have hresolved : (Library.schema.resolve {}).isOk = true := by decide +kernel
  have hrefused : (Alphabet.schema.resolve {}).isOk = false := by decide +kernel
  refine ⟨hlibrary, (hlibrary.resolve_iff {}).1.mp (exists_of_isOk hresolved), halphabet, ?_⟩
  intro hresolvable
  obtain ⟨m, hm⟩ := (halphabet.resolve_iff {}).1.mpr hresolvable
  rw [hm] at hrefused
  cases hrefused

end GraphMapper
