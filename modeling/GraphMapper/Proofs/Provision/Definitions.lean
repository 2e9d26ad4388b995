import GraphMapper.Proofs.Relation.Resolved
import GraphMapper.Provision.Definition
import Mathlib.Data.List.Flatten
import Mathlib.Data.List.Pairwise

/-!
# The definitions of a topology

The graphs of a topology group its associations by their graph names (`Topology.mem_graphs_iff`). When
no two links share an edge collection, no two of them meet in one edge definition: the definition of
a graph has one edge definition for each of its links, with that link's ends alone
(`Topology.mem_definition_edges`), and no other graph defines the collection again
(`Topology.definitions_collections_nodup`).
-/

namespace GraphMapper

/-! ## Grouping by graph -/

/-- Puts an association into the group of its graph. -/
def addToGraph (groups : Dict String (List Association)) (a : Association) :
    Dict String (List Association) :=
  Dict.insert groups a.graph ((Dict.find? groups a.graph).getD [] ++ [a])

theorem find?_foldl_addToGraph {as : List Association} {groups : Dict String (List Association)}
    {graph : String} :
    Dict.find? (as.foldl addToGraph groups) graph =
      if graph ∈ as.map (·.graph) then
        some ((Dict.find? groups graph).getD [] ++ as.filter (·.graph = graph))
      else Dict.find? groups graph := by
  induction as generalizing groups with
  | nil => simp
  | cons a rest ih =>
    rw [List.foldl_cons, ih, addToGraph, Dict.find?_insert]
    by_cases hgraph : a.graph = graph
    · rw [if_pos hgraph, hgraph]
      by_cases hrest : graph ∈ rest.map (·.graph)
      · simp [hgraph, hrest]
      · have hnone : rest.filter (·.graph = graph) = [] := by
          rw [List.filter_eq_nil_iff]
          intro b hb hsame
          exact hrest (of_decide_eq_true hsame ▸ List.mem_map_of_mem hb)
        simp [hgraph, hrest, hnone]
    · simp [hgraph, Ne.symm hgraph]

theorem foldl_addToGraph_sorted {as : List Association} {groups : Dict String (List Association)}
    (h : groups.Sorted) : (as.foldl addToGraph groups).Sorted := by
  induction as generalizing groups with
  | nil => exact h
  | cons a rest ih => exact ih (h.insert _ _)

theorem Topology.graphs_sorted (t : Topology) : t.graphs.Sorted := foldl_addToGraph_sorted .nil

/-- A graph of a topology holds the associations of its name, in order. -/
theorem Topology.mem_graphs_iff {t : Topology} {graph : String} {as : List Association} :
    (graph, as) ∈ t.graphs ↔
      graph ∈ t.associations.map (·.graph) ∧ as = t.associations.filter (·.graph = graph) := by
  have hfold : t.graphs = t.associations.foldl addToGraph [] := rfl
  rw [← Dict.find?_eq_some_iff t.graphs_sorted.keys_nodup, hfold, find?_foldl_addToGraph]
  split
  · next hgraph => simp [hgraph, Dict.find?, eq_comm]
  · next hgraph => simp [hgraph, Dict.find?]

/-! ## Edge definitions -/

/-- The edge definition of a link on its own. -/
def Link.definition (l : Link) : EdgeDefinition :=
  ⟨l.collection, [l.fromCollection], [l.toCollection]⟩

/-- The entry of a link on its own among the ends of edge collections. -/
def Link.ends (l : Link) : String × List String × List String :=
  (l.collection, [l.fromCollection], [l.toCollection])

/-- Links of different edge collections are not merged. -/
theorem foldl_mergeLink {ls : List Link} {ends : Dict String (List String × List String)}
    (hnodup : (ls.map (·.collection)).Nodup)
    (hnew : ∀ l ∈ ls, Dict.find? ends l.collection = none) :
    ls.foldl mergeLink ends =
      (ls.map Link.ends).foldl (fun d e => Dict.insert d e.1 e.2) ends := by
  induction ls generalizing ends with
  | nil => rfl
  | cons l rest ih =>
    rw [List.map_cons, List.nodup_cons] at hnodup
    have hmerge : mergeLink ends l = Dict.insert ends l.ends.1 l.ends.2 := by
      rw [mergeLink, hnew l List.mem_cons_self]
      rfl
    rw [List.foldl_cons, List.map_cons, List.foldl_cons, hmerge]
    apply ih hnodup.2
    intro other hother
    have hne : l.ends.1 ≠ other.collection := fun hsame =>
      hnodup.1 (List.mem_map.mpr ⟨other, hother, hsame.symm⟩)
    rw [Dict.find?_insert, if_neg hne]
    exact hnew other (List.mem_cons_of_mem _ hother)

/-- The edge definitions of a graph are those of its links. -/
theorem GraphDefinition.ofAssociations_edges {name : String} {as : List Association}
    (hnodup : ((as.flatMap Association.links).map (·.collection)).Nodup) :
    (ofAssociations name as).edges.Perm ((as.flatMap Association.links).map Link.definition) := by
  have hkeys : (((as.flatMap Association.links).map Link.ends).map Prod.fst ++
      Dict.keys ([] : Dict String (List String × List String))).Nodup := by
    simpa [Dict.keys, Function.comp_def, Link.ends] using hnodup
  have hends := (Dict.foldl_insert_perm hkeys).map fun e =>
    (⟨e.1, e.2.1, e.2.2⟩ : EdgeDefinition)
  rw [List.append_nil, List.map_map, ← foldl_mergeLink hnodup (fun _ _ => rfl)] at hends
  exact hends

namespace Topology

variable {t : Topology}

/-- The links of a graph. -/
def linksOf (t : Topology) (graph : String) : List Link :=
  (t.associations.filter (·.graph = graph)).flatMap Association.links

theorem mem_linksOf_iff {graph : String} {l : Link} :
    l ∈ t.linksOf graph ↔ ∃ a ∈ t.associations, a.graph = graph ∧ l ∈ a.links := by
  simp [linksOf, and_assoc]

theorem definitions_names_nodup (t : Topology) : (t.definitions.map (·.name)).Nodup := by
  rw [definitions, List.map_map]
  exact t.graphs_sorted.keys_nodup

/-- A graph has a definition when an association names it. -/
theorem exists_definition {a : Association} (ha : a ∈ t.associations) :
    ∃ d ∈ t.definitions, d.name = a.graph := by
  have hgroup := mem_graphs_iff.mpr ⟨List.mem_map_of_mem ha, rfl⟩
  exact ⟨_, List.mem_map_of_mem hgroup, rfl⟩

section

variable (hnodup : (t.links.map (·.collection)).Nodup)
include hnodup

theorem linksOf_collections_nodup (graph : String) :
    ((t.linksOf graph).map (·.collection)).Nodup := by
  have hsublist : (t.linksOf graph).Sublist t.links := List.filter_sublist.flatMap _
  exact (hsublist.map _).nodup hnodup

/-- The definition of a graph has the edge definitions of the links of that graph, each once. -/
theorem definition_edges {d : GraphDefinition} (hd : d ∈ t.definitions) :
    (∃ a ∈ t.associations, a.graph = d.name) ∧
      d.edges.Perm ((t.linksOf d.name).map Link.definition) := by
  obtain ⟨⟨graph, as⟩, hgroup, rfl⟩ := List.mem_map.mp hd
  obtain ⟨hgraph, rfl⟩ := mem_graphs_iff.mp hgroup
  obtain ⟨a, ha, hname⟩ := List.mem_map.mp hgraph
  refine ⟨⟨a, ha, hname⟩, ?_⟩
  exact GraphDefinition.ofAssociations_edges (linksOf_collections_nodup hnodup graph)

theorem mem_definition_edges {d : GraphDefinition} (hd : d ∈ t.definitions) {e : EdgeDefinition} :
    e ∈ d.edges ↔ ∃ l ∈ t.linksOf d.name, l.definition = e := by
  rw [(definition_edges hnodup hd).2.mem_iff, List.mem_map]

/-- No edge collection is defined twice in a graph. -/
theorem definition_collections_nodup {d : GraphDefinition} (hd : d ∈ t.definitions) :
    (d.edges.map (·.collection)).Nodup := by
  rw [((definition_edges hnodup hd).2.map _).nodup_iff, List.map_map]
  exact linksOf_collections_nodup hnodup d.name

/-- Associations whose links share a collection are the same. -/
theorem association_unique {a a' : Association} (ha : a ∈ t.associations)
    (ha' : a' ∈ t.associations) {l l' : Link} (hl : l ∈ a.links) (hl' : l' ∈ a'.links)
    (h : l.collection = l'.collection) : a = a' := by
  rw [links, List.map_flatMap, List.nodup_flatMap] at hnodup
  have hsymm : Std.Symm (Function.onFun List.Disjoint fun a : Association =>
      a.links.map (·.collection)) :=
    ⟨fun _ _ hdisjoint _ hmem hmem' => hdisjoint hmem' hmem⟩
  by_contra hne
  exact hnodup.2.forall ha ha' hne (List.mem_map_of_mem hl) (h ▸ List.mem_map_of_mem hl')

/-- No edge collection is defined twice, in one graph or in two. -/
theorem definitions_collections_nodup :
    ((t.definitions.flatMap (·.edges)).map (·.collection)).Nodup := by
  rw [List.map_flatMap, List.nodup_flatMap]
  refine ⟨fun d hd => definition_collections_nodup hnodup hd, ?_⟩
  have hdistinct : t.definitions.Pairwise fun d d' => d.name ≠ d'.name :=
    List.pairwise_map.mp t.definitions_names_nodup
  refine hdistinct.imp_of_mem fun {d d'} hd hd' hne collection hmem hmem' => hne ?_
  obtain ⟨e, he, rfl⟩ := List.mem_map.mp hmem
  obtain ⟨e', he', heq⟩ := List.mem_map.mp hmem'
  obtain ⟨l, hl, rfl⟩ := (mem_definition_edges hnodup hd).mp he
  obtain ⟨l', hl', rfl⟩ := (mem_definition_edges hnodup hd').mp he'
  obtain ⟨a, ha, hname, hl⟩ := mem_linksOf_iff.mp hl
  obtain ⟨a', ha', hname', hl'⟩ := mem_linksOf_iff.mp hl'
  rw [← hname, ← hname', association_unique hnodup ha ha' hl hl' heq.symm]

/-- The definition of a link is among the definitions. -/
theorem definition_mem {l : Link} (hl : l ∈ t.links) :
    l.definition ∈ t.definitions.flatMap (·.edges) := by
  obtain ⟨a, ha, hl⟩ := List.mem_flatMap.mp hl
  obtain ⟨d, hd, hname⟩ := exists_definition ha
  refine List.mem_flatMap.mpr ⟨d, hd, (mem_definition_edges hnodup hd).mpr ⟨l, ?_, rfl⟩⟩
  exact mem_linksOf_iff.mpr ⟨a, ha, hname.symm, hl⟩

/-- The edge collections of all definitions are those of the links. -/
theorem mem_definition_collections {collection : String} :
    collection ∈ t.definitions.flatMap (fun d => d.edges.map (·.collection)) ↔
      collection ∈ t.links.map (·.collection) := by
  rw [List.mem_flatMap, List.mem_map]
  constructor
  · rintro ⟨d, hd, hmem⟩
    obtain ⟨e, he, rfl⟩ := List.mem_map.mp hmem
    obtain ⟨l, hl, rfl⟩ := (mem_definition_edges hnodup hd).mp he
    obtain ⟨a, ha, -, hl⟩ := mem_linksOf_iff.mp hl
    exact ⟨l, List.mem_flatMap.mpr ⟨a, ha, hl⟩, rfl⟩
  · rintro ⟨l, hl, rfl⟩
    obtain ⟨d, hd, hdefinition⟩ := List.mem_flatMap.mp (definition_mem hnodup hl)
    exact ⟨d, hd, List.mem_map.mpr ⟨l.definition, hdefinition, rfl⟩⟩

end

end Topology

end GraphMapper
