import GraphMapper.Proofs.Mapper
import GraphMapper.Proofs.Provision.Definitions
import GraphMapper.Proofs.Provision.Execution

/-!
# Convergence of plans

A plan for a resolved mapper can be run as it stands, names nothing that the mapper does not have, and
leaves an inventory for which the next plan is empty (`Mapper.Resolved.planSchema_converges`). There
is no plan exactly when a name is taken by a collection of the other sort (`Inventory.Clashes`).
-/

namespace GraphMapper

open Outcome

/-! ## What a plan may name -/

def EdgeDefinition.Within (s : Schema) (t : Topology) (e : EdgeDefinition) : Prop :=
  e.collection ∈ t.links.map (·.collection) ∧ ∀ c ∈ e.sources ++ e.targets, c ∈ s.collections

/-- All names in a step are those of the schema and its topology. -/
def SchemaChange.Within (s : Schema) (t : Topology) : SchemaChange → Prop
  | createCollection name => name ∈ s.collections
  | createEdgeCollection name => name ∈ t.links.map (·.collection)
  | createGraph d => d.name ∈ t.associations.map (·.graph) ∧ ∀ e ∈ d.edges, e.Within s t
  | addEdges graph d | replaceEdges graph d =>
    graph ∈ t.associations.map (·.graph) ∧ d.Within s t

/-- The inventory has a name as a collection of the other sort. -/
def Inventory.Clashes (inv : Inventory) (s : Schema) (t : Topology) (name : String) : Prop :=
  (name ∈ s.collections ∧ name ∈ inv.edgeCollections) ∨
    (name ∈ t.links.map (·.collection) ∧ name ∈ inv.collections)

/-- The graph of each link defines its edge collection with the ends of the link and no others. -/
def Inventory.Serves (inv : Inventory) (t : Topology) : Prop :=
  ∀ a ∈ t.associations, ∀ l ∈ a.links, ∃ e, inv.definition? a.graph l.collection = some e ∧
    (∀ c, c ∈ e.sources ↔ c = l.fromCollection) ∧ ∀ c, c ∈ e.targets ↔ c = l.toCollection

/-! ## The parts of a plan -/

/-- The edge collections that the definitions of a topology name. -/
def Topology.edgeNames (t : Topology) : List String :=
  sortDistinct (t.definitions.flatMap fun d => d.edges.map (·.collection))

/-- The collections of a topology are its own and join documents of the schema. -/
structure Topology.Fits (t : Topology) (s : Schema) : Prop where
  collections_nodup : (t.links.map (·.collection) ++ s.collections).Nodup
  ends : ∀ l ∈ t.links, l.fromCollection ∈ s.collections ∧ l.toCollection ∈ s.collections

theorem Schema.WellFormed.collectionName_mem {s : Schema} (hs : s.WellFormed) {e : Entity}
    (he : e ∈ s.all) : e.collectionName ∈ s.collections :=
  List.mem_map_of_mem ((hs.owner_iff _ _).mpr ⟨e, he, rfl, rfl⟩)

theorem Mapper.Resolved.fits {m : Mapper} (hm : m.Resolved) : m.topology.Fits m.schema := by
  obtain ⟨ds, hds, ht⟩ := hm.topology
  refine ⟨ht.collections_nodup, ?_⟩
  intro l hl
  obtain ⟨d, hd, rfl⟩ := List.mem_map.mp (ht.links_perm.mem_iff.mp hl)
  obtain ⟨hsource, -, htarget⟩ := (Schema.mem_declarations_iff hds).mp hd
  obtain ⟨htarget, -⟩ := hm.wellFormed.entity?_eq_some_iff.mp htarget
  exact ⟨hm.wellFormed.collectionName_mem hsource, hm.wellFormed.collectionName_mem htarget⟩

namespace Topology.Fits

variable {t : Topology} {s : Schema} (h : t.Fits s)
include h

theorem links_nodup : (t.links.map (·.collection)).Nodup :=
  (List.nodup_append.mp h.collections_nodup).1

theorem collections_disjoint {name : String} (hs : name ∈ s.collections) :
    name ∉ t.links.map (·.collection) := fun ht =>
  (List.nodup_append.mp h.collections_nodup).2.2 name ht name hs rfl

theorem mem_edgeNames {name : String} :
    name ∈ t.edgeNames ↔ name ∈ t.links.map (·.collection) := by
  rw [edgeNames, mem_sortDistinct]
  exact mem_definition_collections h.links_nodup

/-- A definition holds what the links of its graph need. -/
theorem definition_within {d : GraphDefinition} (hd : d ∈ t.definitions) :
    d.name ∈ t.associations.map (·.graph) ∧ ∀ e ∈ d.edges, e.Within s t := by
  obtain ⟨⟨a, ha, hname⟩, -⟩ := definition_edges h.links_nodup hd
  refine ⟨hname ▸ List.mem_map_of_mem ha, ?_⟩
  intro e he
  obtain ⟨l, hl, rfl⟩ := (mem_definition_edges h.links_nodup hd).mp he
  obtain ⟨a, ha, -, hl⟩ := mem_linksOf_iff.mp hl
  have hlink : l ∈ t.links := List.mem_flatMap.mpr ⟨a, ha, hl⟩
  obtain ⟨hsource, htarget⟩ := h.ends l hlink
  refine ⟨List.mem_map_of_mem hlink, ?_⟩
  intro c hc
  rcases List.mem_append.mp hc with hc | hc
  · exact List.mem_singleton.mp hc ▸ hsource
  · exact List.mem_singleton.mp hc ▸ htarget

/-- There is a plan when no name clashes, and it has three parts. -/
theorem planSchema_eq_ok_iff {inv : Inventory} {changes : List SchemaChange} :
    planSchema s t inv = .ok changes ↔ (∀ name, ¬ inv.Clashes s t name) ∧
      changes = (s.collections.filter (· ∉ inv.collections)).map .createCollection ++
        (t.edgeNames.filter (· ∉ inv.edgeCollections)).map .createEdgeCollection ++
          t.definitions.flatMap (planGraph inv) := by
  have hclashes : (∀ name, ¬ inv.Clashes s t name) ↔
      (∀ n ∈ s.collections, n ∉ inv.edgeCollections) ∧ ∀ n ∈ t.edgeNames, n ∉ inv.collections := by
    simp only [Inventory.Clashes, not_or, not_and, h.mem_edgeNames]
    exact forall_and
  rw [hclashes]
  constructor
  · intro hplan
    obtain ⟨documents, hdocuments, hplan⟩ := bind_eq_ok.mp hplan
    obtain ⟨edges, hedges, hplan⟩ := bind_eq_ok.mp hplan
    obtain ⟨hdocument, rfl⟩ := planCollections_eq_ok_iff.mp hdocuments
    obtain ⟨hedge, rfl⟩ := planCollections_eq_ok_iff.mp hedges
    exact ⟨⟨hdocument, hedge⟩, (pure_eq_ok.mp hplan).symm⟩
  · rintro ⟨⟨hdocument, hedge⟩, rfl⟩
    exact bind_eq_ok.mpr ⟨_, planCollections_eq_ok_iff.mpr ⟨hdocument, rfl⟩,
      bind_eq_ok.mpr ⟨_, planCollections_eq_ok_iff.mpr ⟨hedge, rfl⟩, rfl⟩⟩

/-- What there is no plan for is a name that clashes. -/
theorem planSchema_eq_error {inv : Inventory} {error : Error}
    (hplan : planSchema s t inv = .error error) :
    ∃ name, inv.Clashes s t name ∧ error = .collectionNameCollision name := by
  unfold planSchema at hplan
  cases hdocuments : planCollections .createCollection inv.collections inv.edgeCollections
      s.collections with
  | error e =>
    rw [hdocuments] at hplan
    obtain rfl := Except.error.inj hplan
    obtain ⟨n, hn, hother, rfl⟩ := planCollections_eq_error hdocuments
    exact ⟨n, Or.inl ⟨hn, hother⟩, rfl⟩
  | ok documents =>
    rw [hdocuments] at hplan
    change (planCollections .createEdgeCollection inv.edgeCollections inv.collections
      t.edgeNames >>= _) = _ at hplan
    cases hedges : planCollections .createEdgeCollection inv.edgeCollections inv.collections
        t.edgeNames with
    | error e =>
      rw [hedges] at hplan
      obtain rfl := Except.error.inj hplan
      obtain ⟨n, hn, hother, rfl⟩ := planCollections_eq_error hedges
      exact ⟨n, Or.inr ⟨h.mem_edgeNames.mp hn, hother⟩, rfl⟩
    | ok edges =>
      rw [hedges] at hplan
      cases hplan

theorem exists_error_iff {inv : Inventory} :
    (∃ error, planSchema s t inv = .error error) ↔ ∃ name, inv.Clashes s t name := by
  constructor
  · rintro ⟨error, hplan⟩
    obtain ⟨name, hname, -⟩ := h.planSchema_eq_error hplan
    exact ⟨name, hname⟩
  · rintro ⟨name, hname⟩
    cases hplan : planSchema s t inv with
    | error error => exact ⟨error, rfl⟩
    | ok changes => exact absurd hname ((h.planSchema_eq_ok_iff.mp hplan).1 name)

end Topology.Fits

/-! ## Steps of a plan -/

theorem SchemaChange.within_of_planGraph {s : Schema} {t : Topology} {inv : Inventory}
    {d : GraphDefinition} (hname : d.name ∈ t.associations.map (·.graph))
    (hedges : ∀ e ∈ d.edges, e.Within s t) {change : SchemaChange}
    (h : change ∈ planGraph inv d) : change.Within s t := by
  unfold planGraph at h
  split at h
  · obtain rfl := List.mem_singleton.mp h
    exact ⟨hname, hedges⟩
  · obtain ⟨e, he, h⟩ := List.mem_flatMap.mp h
    unfold planEdges at h
    split at h
    · obtain rfl := List.mem_singleton.mp h
      exact ⟨hname, hedges e he⟩
    · split at h
      · cases h
      · obtain rfl := List.mem_singleton.mp h
        exact ⟨hname, hedges e he⟩

theorem Topology.Fits.within {t : Topology} {s : Schema} (h : t.Fits s) {inv : Inventory}
    {changes : List SchemaChange} (hplan : planSchema s t inv = .ok changes)
    {change : SchemaChange} (hchange : change ∈ changes) : change.Within s t := by
  obtain ⟨-, rfl⟩ := h.planSchema_eq_ok_iff.mp hplan
  rw [List.mem_append, List.mem_append] at hchange
  rcases hchange with (hdocument | hedge) | hgraph
  · obtain ⟨n, hn, rfl⟩ := List.mem_map.mp hdocument
    exact List.mem_of_mem_filter hn
  · obtain ⟨n, hn, rfl⟩ := List.mem_map.mp hedge
    exact h.mem_edgeNames.mp (List.mem_of_mem_filter hn)
  · obtain ⟨d, hd, hgraph⟩ := List.mem_flatMap.mp hgraph
    obtain ⟨hname, hedges⟩ := h.definition_within hd
    exact SchemaChange.within_of_planGraph hname hedges hgraph

/-! ## Running a plan -/

/-- What the inventory has after the plan. -/
structure Inventory.Provisioned (inv inv' : Inventory) (s : Schema) (t : Topology) : Prop where
  collections : ∀ n, n ∈ inv'.collections ↔ n ∈ s.collections ∨ n ∈ inv.collections
  edgeCollections : ∀ n, n ∈ inv'.edgeCollections ↔
    n ∈ t.links.map (·.collection) ∨ n ∈ inv.edgeCollections
  graphs : ∀ d ∈ t.definitions, (inv'.graph? d.name).isSome ∧
    ∀ e ∈ d.edges, inv'.Provides d.name e

namespace Topology.Fits

variable {t : Topology} {s : Schema} (h : t.Fits s)
include h

/-- Collections first, then edge collections, then graphs: each step is due. -/
theorem runs (hs : s.WellFormed) {inv : Inventory} {changes : List SchemaChange}
    (hplan : planSchema s t inv = .ok changes) :
    ∃ inv', inv.Runs changes inv' ∧ inv.Provisioned inv' s t := by
  obtain ⟨hclash, rfl⟩ := h.planSchema_eq_ok_iff.mp hplan
  have hcollectionsNodup : s.collections.Nodup := hs.owners_nodup
  have hedgesNodup : t.edgeNames.Nodup := sortDistinct_nodup _
  obtain ⟨inv₁, hruns₁, hdocuments₁, hedges₁, hgraphs₁⟩ :=
    Inventory.runs_createMissing .documents hcollectionsNodup
      fun n hn hedge => hclash n (Or.inl ⟨hn, hedge⟩)
  change ∀ n, n ∈ inv₁.collections ↔ n ∈ s.collections ∨ n ∈ inv.collections at hdocuments₁
  change inv₁.edgeCollections = inv.edgeCollections at hedges₁
  -- no edge collection is among the documents that have been created
  have hfree : ∀ n ∈ t.edgeNames, n ∉ inv₁.collections := by
    intro n hn hdocument
    have hlink := h.mem_edgeNames.mp hn
    rcases (hdocuments₁ n).mp hdocument with hdocument | hdocument
    · exact h.collections_disjoint hdocument hlink
    · exact hclash n (Or.inr ⟨hlink, hdocument⟩)
  obtain ⟨inv₂, hruns₂, hedges₂, hdocuments₂, hgraphs₂⟩ :=
    Inventory.runs_createMissing .edges hedgesNodup hfree
  change ∀ n, n ∈ inv₂.edgeCollections ↔ n ∈ t.edgeNames ∨ n ∈ inv₁.edgeCollections at hedges₂
  change inv₂.collections = inv₁.collections at hdocuments₂
  change inv₁.Runs ((t.edgeNames.filter (· ∉ inv₁.edgeCollections)).map _) inv₂ at hruns₂
  rw [hedges₁] at hruns₂ hedges₂
  have hholds : ∀ d ∈ t.definitions, ∀ e ∈ d.edges, inv₂.Holds e := by
    intro d hd e he
    obtain ⟨hedge, hends⟩ := (h.definition_within hd).2 e he
    refine ⟨(hedges₂ _).mpr (Or.inl (h.mem_edgeNames.mpr hedge)), ?_⟩
    intro c hc
    rw [hdocuments₂]
    exact (hdocuments₁ c).mpr (Or.inl (hends c hc))
  have hgraphs : inv₂.graphs = inv.graphs := hgraphs₂.trans hgraphs₁
  have hsame : ∀ d ∈ t.definitions, inv₂.graph? d.name = inv.graph? d.name := fun d _ =>
    congrArg (Dict.find? · d.name) hgraphs
  obtain ⟨inv₃, hruns₃, hdocuments₃, hedges₃, -, hprovides⟩ :=
    Inventory.planGraph_all_runs t.definitions_names_nodup
      (fun d hd => definition_collections_nodup h.links_nodup hd) hsame hholds
  refine ⟨inv₃, (hruns₁.append hruns₂).append hruns₃, ?_, ?_, hprovides⟩
  · intro n
    rw [hdocuments₃, hdocuments₂]
    exact hdocuments₁ n
  · intro n
    rw [hedges₃, hedges₂, h.mem_edgeNames]

/-- Where everything is provided, nothing is left to plan. -/
theorem planSchema_eq_nil {inv inv' : Inventory} (hclash : ∀ name, ¬ inv.Clashes s t name)
    (hprovisioned : inv.Provisioned inv' s t) : planSchema s t inv' = .ok [] := by
  rw [h.planSchema_eq_ok_iff]
  constructor
  · rintro name (⟨hdocument, hedge⟩ | ⟨hedge, hdocument⟩)
    · rcases (hprovisioned.edgeCollections name).mp hedge with hlink | hedge
      · exact h.collections_disjoint hdocument hlink
      · exact hclash name (Or.inl ⟨hdocument, hedge⟩)
    · rcases (hprovisioned.collections name).mp hdocument with hown | hdocument
      · exact h.collections_disjoint hown hedge
      · exact hclash name (Or.inr ⟨hedge, hdocument⟩)
  · have hdocuments : s.collections.filter (· ∉ inv'.collections) = [] := by
      rw [List.filter_eq_nil_iff]
      intro n hn hmissing
      exact of_decide_eq_true hmissing ((hprovisioned.collections n).mpr (Or.inl hn))
    have hedges : t.edgeNames.filter (· ∉ inv'.edgeCollections) = [] := by
      rw [List.filter_eq_nil_iff]
      intro n hn hmissing
      exact of_decide_eq_true hmissing
        ((hprovisioned.edgeCollections n).mpr (Or.inl (h.mem_edgeNames.mp hn)))
    have hgraphs : t.definitions.flatMap (planGraph inv') = [] := by
      rw [List.flatMap_eq_nil_iff]
      intro d hd
      obtain ⟨hsome, hprovides⟩ := hprovisioned.graphs d hd
      exact Inventory.planGraph_eq_nil hsome hprovides
    rw [hdocuments, hedges, hgraphs]
    rfl

/-- The definitions that a plan leaves are those of the links. -/
theorem serves {inv inv' : Inventory} (hprovisioned : inv.Provisioned inv' s t) :
    inv'.Serves t := by
  intro a ha l hl
  obtain ⟨d, hd, hname⟩ := exists_definition ha
  have hedge : l.definition ∈ d.edges :=
    (mem_definition_edges h.links_nodup hd).mpr ⟨l, mem_linksOf_iff.mpr ⟨a, ha, hname.symm, hl⟩, rfl⟩
  obtain ⟨found, hfound, hends⟩ := (hprovisioned.graphs d hd).2 _ hedge
  rw [hname] at hfound
  obtain ⟨hsources, htargets⟩ := EdgeDefinition.sameEnds_iff.mp hends
  refine ⟨found, hfound, ?_, ?_⟩
  · exact fun c => (hsources c).trans List.mem_singleton
  · exact fun c => (htargets c).trans List.mem_singleton

end Topology.Fits

/-- A plan runs step by step, names only what the mapper has, defines every link, and leaves nothing to
plan. There is none exactly when a collection of the mapper exists as one of the other sort. -/
theorem Mapper.Resolved.planSchema_converges {m : Mapper} (hm : m.Resolved) (inv : Inventory) :
    (∀ changes, planSchema m.schema m.topology inv = .ok changes →
      inv.Runs changes (inv.run changes) ∧
      (∀ change ∈ changes, change.Within m.schema m.topology) ∧
      (inv.run changes).Serves m.topology ∧
      planSchema m.schema m.topology (inv.run changes) = .ok []) ∧
    (∀ error, planSchema m.schema m.topology inv = .error error →
      ∃ name, inv.Clashes m.schema m.topology name ∧ error = .collectionNameCollision name) ∧
    ((∃ error, planSchema m.schema m.topology inv = .error error) ↔
      ∃ name, inv.Clashes m.schema m.topology name) := by
  have hfits := hm.fits
  refine ⟨?_, fun _ => hfits.planSchema_eq_error, hfits.exists_error_iff⟩
  intro changes hplan
  obtain ⟨inv', hruns, hprovisioned⟩ := hfits.runs hm.wellFormed hplan
  have hclash := (hfits.planSchema_eq_ok_iff.mp hplan).1
  obtain rfl := hruns.eq_run
  exact ⟨hruns, fun change => hfits.within hplan, hfits.serves hprovisioned,
    hfits.planSchema_eq_nil hclash hprovisioned⟩

/-- A database that has one of the document collections, and the graph with other ends for one of its
edge collections. -/
def Bank.olderInventory : Inventory where
  collections := ["people"]
  edgeCollections := ["holds"]
  graphs := [("ownership", [⟨"holds", ["people"], ["people", "accounts"]⟩])]

theorem Mapper.planSchema_converges_bank :
    (∃ changes, planSchema Bank.mapper.schema Bank.mapper.topology Bank.olderInventory =
        .ok changes ∧ changes.length = 4 ∧
      Bank.olderInventory.Runs changes (Bank.olderInventory.run changes) ∧
      planSchema Bank.mapper.schema Bank.mapper.topology (Bank.olderInventory.run changes) =
        .ok []) ∧
    ∃ error, planSchema Bank.mapper.schema Bank.mapper.topology { edgeCollections := ["people"] } =
      .error error := by
  constructor
  · have hlength : (planSchema Bank.mapper.schema Bank.mapper.topology
        Bank.olderInventory).toOption.map List.length = some 4 := by decide +kernel
    cases hplan : planSchema Bank.mapper.schema Bank.mapper.topology Bank.olderInventory with
    | error error =>
      rw [hplan] at hlength
      cases hlength
    | ok changes =>
      rw [hplan] at hlength
      obtain ⟨hruns, -, -, hnil⟩ :=
        (Mapper.Resolved.planSchema_converges Bank.mapper_resolved Bank.olderInventory).1
          changes hplan
      exact ⟨changes, rfl, Option.some.inj hlength, hruns, hnil⟩
  · have hclash : Inventory.Clashes { edgeCollections := ["people"] } Bank.mapper.schema
        Bank.mapper.topology "people" := by
      refine Or.inl ⟨?_, by simp⟩
      have hmem : Bank.mapper.schema.collections.contains "people" = true := by decide +kernel
      exact List.contains_iff_mem.mp hmem
    exact (Mapper.Resolved.planSchema_converges Bank.mapper_resolved
      { edgeCollections := ["people"] }).2.2.mpr ⟨"people", hclash⟩

end GraphMapper
