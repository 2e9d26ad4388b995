import GraphMapper.Proofs.Dict
import GraphMapper.Proofs.Outcome
import GraphMapper.Provision.Plan

/-!
# Running plans

The effect of a step on an inventory (`SchemaChange.apply`), and when a step is due: what it makes is
missing, what it changes is there and differs, and the collections that it names exist
(`SchemaChange.Due`). A plan runs when every step is due where it stands (`Inventory.Runs`).

Each part of a plan is run on its own, and its run says what the inventory has afterwards:
`runs_create` for collections, `planGraph_runs` for a graph.
-/

namespace GraphMapper

open Outcome

/-! ## What an inventory has -/

/-- The first edge definition of a collection. -/
def firstDefinition? (edges : List EdgeDefinition) (collection : String) : Option EdgeDefinition :=
  edges.find? fun e => e.collection == collection

namespace Inventory

def graph? (inv : Inventory) (graph : String) : Option (List EdgeDefinition) :=
  Dict.find? inv.graphs graph

/-- The first edge definition of a collection in a graph. -/
def definition? (inv : Inventory) (graph collection : String) : Option EdgeDefinition :=
  (inv.graph? graph).bind (firstDefinition? · collection)

/-- Every collection that an edge definition names exists. -/
def Holds (inv : Inventory) (e : EdgeDefinition) : Prop :=
  e.collection ∈ inv.edgeCollections ∧ ∀ c ∈ e.sources ++ e.targets, c ∈ inv.collections

/-- Puts a graph with its edge definitions, in place of what it was before. -/
def withGraph (inv : Inventory) (graph : String) (edges : List EdgeDefinition) : Inventory :=
  { inv with graphs := Dict.insert inv.graphs graph edges }

end Inventory

/-! ## Steps -/

namespace SchemaChange

/-- The inventory after a step. -/
def apply (inv : Inventory) : SchemaChange → Inventory
  | createCollection name => { inv with collections := insertSorted name inv.collections }
  | createEdgeCollection name =>
    { inv with edgeCollections := insertSorted name inv.edgeCollections }
  | createGraph d => inv.withGraph d.name d.edges
  | addEdges graph d => inv.withGraph graph ((inv.graph? graph).getD [] ++ [d])
  | replaceEdges graph d => inv.withGraph graph
      (((inv.graph? graph).getD []).map fun e => if e.collection = d.collection then d else e)

/-- A step is needed and can be run. -/
def Due (inv : Inventory) : SchemaChange → Prop
  | createCollection name | createEdgeCollection name =>
    name ∉ inv.collections ∧ name ∉ inv.edgeCollections
  | createGraph d => inv.graph? d.name = none ∧ ∀ e ∈ d.edges, inv.Holds e
  | addEdges graph d =>
    (∃ current, inv.graph? graph = some current ∧ ∀ e ∈ current, e.collection ≠ d.collection) ∧
      inv.Holds d
  | replaceEdges graph d =>
    (∃ found, inv.definition? graph d.collection = some found ∧ found.sameEnds d = false) ∧
      inv.Holds d

end SchemaChange

namespace Inventory

/-- The inventory after some steps. -/
def run (inv : Inventory) (changes : List SchemaChange) : Inventory :=
  changes.foldl SchemaChange.apply inv

/-- Steps that are due one after the other, and the inventory after them. -/
inductive Runs : Inventory → List SchemaChange → Inventory → Prop
  | nil (inv : Inventory) : Runs inv [] inv
  | cons {inv inv' : Inventory} {change : SchemaChange} {rest : List SchemaChange} :
      change.Due inv → Runs (change.apply inv) rest inv' → Runs inv (change :: rest) inv'

theorem Runs.eq_run {inv inv' : Inventory} {changes : List SchemaChange}
    (h : inv.Runs changes inv') : inv' = inv.run changes := by
  induction h with
  | nil inv => rfl
  | cons _ _ ih => exact ih

theorem Runs.one {inv : Inventory} {change : SchemaChange} (h : change.Due inv) :
    inv.Runs [change] (change.apply inv) := .cons h (.nil _)

theorem Runs.append {inv inv' inv'' : Inventory} {as bs : List SchemaChange}
    (h : inv.Runs as inv') (h' : inv'.Runs bs inv'') : inv.Runs (as ++ bs) inv'' := by
  induction h with
  | nil inv => exact h'
  | cons hdue _ ih => exact .cons hdue (ih h')

end Inventory

/-! ## Creating collections -/

/-- The two sorts of collections. -/
inductive CollectionSort where
  | documents
  | edges

def CollectionSort.other : CollectionSort → CollectionSort
  | documents => edges
  | edges => documents

theorem CollectionSort.eq_or_other (sort sort' : CollectionSort) :
    sort = sort' ∨ sort = sort'.other := by
  cases sort <;> cases sort' <;> first | exact Or.inl rfl | exact Or.inr rfl

/-- The collections of a sort. -/
def Inventory.names (inv : Inventory) : CollectionSort → List String
  | .documents => inv.collections
  | .edges => inv.edgeCollections

/-- The step that creates a collection of a sort. -/
def SchemaChange.create : CollectionSort → String → SchemaChange
  | .documents => createCollection
  | .edges => createEdgeCollection

/-- No missing collection is refused, and those that are missing are created. -/
theorem planCollections_eq_ok_iff {create : String → SchemaChange} {present others names : List String}
    {changes : List SchemaChange} :
    planCollections create present others names = .ok changes ↔
      (∀ n ∈ names, n ∉ others) ∧ changes = (names.filter (· ∉ present)).map create := by
  induction names generalizing changes with
  | nil => simp [planCollections, eq_comm]
  | cons n rest ih =>
    rw [planCollections]
    refine guard_eq_ok.trans ?_
    rw [List.contains_iff_mem, List.forall_mem_cons, and_assoc]
    refine and_congr_right fun _ => ?_
    rw [bind_eq_ok]
    simp only [ih, pure_eq_ok, List.contains_iff_mem]
    by_cases hpresent : n ∈ present <;> simp [hpresent, eq_comm]

/-- What is refused is a name that the other sort has. -/
theorem planCollections_eq_error {create : String → SchemaChange}
    {present others names : List String} {error : Error}
    (h : planCollections create present others names = .error error) :
    ∃ n ∈ names, n ∈ others ∧ error = .collectionNameCollision n := by
  induction names with
  | nil => cases h
  | cons n rest ih =>
    rw [planCollections] at h
    split at h
    · next hother =>
      obtain rfl := Except.error.inj h
      exact ⟨n, List.mem_cons_self, List.contains_iff_mem.mp hother, rfl⟩
    · cases hrest : planCollections create present others rest with
      | error e =>
        rw [hrest] at h
        obtain rfl := Except.error.inj h
        obtain ⟨n', hn', hother, rfl⟩ := ih hrest
        exact ⟨n', List.mem_cons_of_mem _ hn', hother, rfl⟩
      | ok changes =>
        rw [hrest] at h
        cases h

namespace Inventory

variable {inv : Inventory}

theorem due_create {sort : CollectionSort} {name : String} :
    (SchemaChange.create sort name).Due inv ↔ ∀ sort', name ∉ inv.names sort' := by
  constructor
  · intro h sort'
    cases sort <;> cases sort' <;> first | exact h.1 | exact h.2
  · intro h
    cases sort <;> exact ⟨h .documents, h .edges⟩

theorem apply_create (inv : Inventory) (sort : CollectionSort) (name : String) :
    ((SchemaChange.create sort name).apply inv).names sort =
        insertSorted name (inv.names sort) ∧
      ((SchemaChange.create sort name).apply inv).names sort.other = inv.names sort.other ∧
      ((SchemaChange.create sort name).apply inv).graphs = inv.graphs := by
  cases sort <;> exact ⟨rfl, rfl, rfl⟩

/-- New collections are created one after the other. -/
theorem runs_create (sort : CollectionSort) {names : List String} (hnodup : names.Nodup)
    (hnew : ∀ n ∈ names, ∀ sort', n ∉ inv.names sort') :
    ∃ inv', inv.Runs (names.map (SchemaChange.create sort)) inv' ∧
      (∀ n, n ∈ inv'.names sort ↔ n ∈ names ∨ n ∈ inv.names sort) ∧
      inv'.names sort.other = inv.names sort.other ∧ inv'.graphs = inv.graphs := by
  induction names generalizing inv with
  | nil => exact ⟨inv, .nil inv, by simp, rfl, rfl⟩
  | cons n rest ih =>
    rw [List.nodup_cons] at hnodup
    obtain ⟨hcreated, hother, hgraphs⟩ := apply_create inv sort n
    have hrest : ∀ m ∈ rest, ∀ sort', m ∉ ((SchemaChange.create sort n).apply inv).names sort' := by
      intro m hm sort'
      have hne : m ≠ n := fun hsame => hnodup.1 (hsame ▸ hm)
      have hold := hnew m (List.mem_cons_of_mem _ hm) sort'
      rcases sort'.eq_or_other sort with rfl | rfl
      · rw [hcreated, mem_insertSorted, not_or]
        exact ⟨hne, hold⟩
      · rwa [hother]
    obtain ⟨inv', hruns, hnames, hother', hgraphs'⟩ := ih hnodup.2 hrest
    refine ⟨inv', .cons (due_create.mpr (hnew n List.mem_cons_self)) hruns, ?_,
      hother'.trans hother, hgraphs'.trans hgraphs⟩
    intro m
    rw [hnames, hcreated, mem_insertSorted, List.mem_cons, or_left_comm, or_assoc]

/-- Of names that the other sort does not have, the missing ones are created. -/
theorem runs_createMissing (sort : CollectionSort) {names : List String} (hnodup : names.Nodup)
    (hfree : ∀ n ∈ names, n ∉ inv.names sort.other) :
    ∃ inv', inv.Runs ((names.filter (· ∉ inv.names sort)).map (SchemaChange.create sort)) inv' ∧
      (∀ n, n ∈ inv'.names sort ↔ n ∈ names ∨ n ∈ inv.names sort) ∧
      inv'.names sort.other = inv.names sort.other ∧ inv'.graphs = inv.graphs := by
  have hnew : ∀ n ∈ names.filter (· ∉ inv.names sort), ∀ sort', n ∉ inv.names sort' := by
    intro n hn sort'
    obtain ⟨hmem, hmissing⟩ := List.mem_filter.mp hn
    rcases sort'.eq_or_other sort with rfl | rfl
    · exact of_decide_eq_true hmissing
    · exact hfree n hmem
  obtain ⟨inv', hruns, hnames, hother, hgraphs⟩ := runs_create sort (hnodup.filter _) hnew
  refine ⟨inv', hruns, ?_, hother, hgraphs⟩
  intro n
  rw [hnames, List.mem_filter, decide_eq_true_eq]
  by_cases hn : n ∈ inv.names sort <;> simp [hn]

end Inventory

/-! ## Ends of edge definitions -/

theorem sameNames_iff {a b : List String} : sameNames a b = true ↔ ∀ n, n ∈ a ↔ n ∈ b := by
  simp only [sameNames, Bool.and_eq_true, List.all_eq_true, List.contains_iff_mem]
  constructor
  · rintro ⟨hab, hba⟩ n
    exact ⟨hab n, hba n⟩
  · intro h
    exact ⟨fun n => (h n).mp, fun n => (h n).mpr⟩

theorem EdgeDefinition.sameEnds_iff {a b : EdgeDefinition} : a.sameEnds b = true ↔
    (∀ n, n ∈ a.sources ↔ n ∈ b.sources) ∧ ∀ n, n ∈ a.targets ↔ n ∈ b.targets := by
  rw [sameEnds, Bool.and_eq_true, sameNames_iff, sameNames_iff]

theorem EdgeDefinition.sameEnds_self (e : EdgeDefinition) : e.sameEnds e = true :=
  sameEnds_iff.mpr ⟨fun _ => Iff.rfl, fun _ => Iff.rfl⟩

theorem firstDefinition?_eq_none_iff {edges : List EdgeDefinition} {collection : String} :
    firstDefinition? edges collection = none ↔ ∀ e ∈ edges, e.collection ≠ collection := by
  simp [firstDefinition?]

/-- Of definitions for different collections, each is the first of its own. -/
theorem firstDefinition?_of_mem {edges : List EdgeDefinition}
    (hnodup : (edges.map (·.collection)).Nodup) {e : EdgeDefinition} (he : e ∈ edges) :
    firstDefinition? edges e.collection = some e := by
  cases hfirst : firstDefinition? edges e.collection with
  | none => exact absurd rfl (firstDefinition?_eq_none_iff.mp hfirst e he)
  | some found =>
    have hsame : found.collection = e.collection := by simpa using List.find?_some hfirst
    rw [List.inj_on_of_nodup_map hnodup (List.mem_of_find?_eq_some hfirst) he hsame]

theorem firstDefinition?_append {edges : List EdgeDefinition} {d : EdgeDefinition}
    (hnew : firstDefinition? edges d.collection = none) (collection : String) :
    firstDefinition? (edges ++ [d]) collection =
      if d.collection = collection then some d else firstDefinition? edges collection := by
  by_cases hsame : d.collection = collection
  · subst hsame
    rw [firstDefinition?] at hnew ⊢
    simp [List.find?_append, hnew]
  · simp [firstDefinition?, List.find?_append, hsame]

theorem firstDefinition?_replace {edges : List EdgeDefinition} {d found : EdgeDefinition}
    (hfound : firstDefinition? edges d.collection = some found) (collection : String) :
    firstDefinition? (edges.map fun e => if e.collection = d.collection then d else e) collection =
      if d.collection = collection then some d else firstDefinition? edges collection := by
  -- a replaced definition has the collection that it had before
  have hkept : ∀ e : EdgeDefinition,
      (if e.collection = d.collection then d else e).collection = e.collection := by
    intro e
    split
    · next hsame => exact hsame.symm
    · rfl
  have hmap : firstDefinition? (edges.map fun e => if e.collection = d.collection then d else e)
      collection = (firstDefinition? edges collection).map
        fun e => if e.collection = d.collection then d else e := by
    simp only [firstDefinition?, List.find?_map, Function.comp_def, hkept]
  rw [hmap]
  split
  · next hsame =>
    have hown : found.collection = d.collection := by simpa using List.find?_some hfound
    rw [← hsame, hfound, Option.map_some, if_pos hown]
  · next hother =>
    cases hfirst : firstDefinition? edges collection with
    | none => rfl
    | some e =>
      have hown : e.collection = collection := by simpa using List.find?_some hfirst
      rw [Option.map_some, if_neg (hown ▸ Ne.symm hother)]

/-! ## Running the plan of a graph -/

namespace Inventory

variable {inv inv' inv'' : Inventory} {graph : String}

/-- The graph defines the collection of an edge definition, with its ends. -/
def Provides (inv : Inventory) (graph : String) (e : EdgeDefinition) : Prop :=
  ∃ found, inv.definition? graph e.collection = some found ∧ found.sameEnds e = true

/-- What a run that defines some edge collections of a graph has changed. -/
structure Defines (graph : String) (edges : List EdgeDefinition) (inv inv' : Inventory) : Prop where
  collections : inv'.collections = inv.collections
  edgeCollections : inv'.edgeCollections = inv.edgeCollections
  others : ∀ other, other ≠ graph → inv'.graph? other = inv.graph? other
  isSome : (inv'.graph? graph).isSome
  provides : ∀ e ∈ edges, inv'.Provides graph e
  kept : ∀ c, c ∉ edges.map (·.collection) → inv'.definition? graph c = inv.definition? graph c

theorem Defines.holds {edges : List EdgeDefinition} (h : Defines graph edges inv inv')
    {e : EdgeDefinition} : inv'.Holds e ↔ inv.Holds e := by
  rw [Holds, Holds, h.collections, h.edgeCollections]

theorem graph?_withGraph (edges : List EdgeDefinition) (other : String) :
    (inv.withGraph graph edges).graph? other =
      if graph = other then some edges else inv.graph? other :=
  Dict.find?_insert inv.graphs graph other edges

/-- A graph is put down with one definition for each collection. -/
theorem defines_withGraph {edges edges' : List EdgeDefinition}
    (hprovides : ∀ e ∈ edges, ∃ found, firstDefinition? edges' e.collection = some found ∧
      found.sameEnds e = true)
    (hkept : ∀ c, c ∉ edges.map (·.collection) →
      firstDefinition? edges' c = inv.definition? graph c) :
    Defines graph edges inv (inv.withGraph graph edges') := by
  have hown : (inv.withGraph graph edges').graph? graph = some edges' := by
    rw [graph?_withGraph, if_pos rfl]
  constructor
  · rfl
  · rfl
  · intro other hother
    rw [graph?_withGraph, if_neg hother.symm]
  · rw [hown]
    rfl
  · intro e he
    rw [Provides, definition?, hown]
    exact hprovides e he
  · intro c hc
    rw [definition?, hown]
    exact hkept c hc

/-- The plan of one edge collection leaves it defined as it is wanted. -/
theorem planEdges_runs {current now : List EdgeDefinition} {wanted : EdgeDefinition}
    (hnow : inv.graph? graph = some now)
    (hsame : firstDefinition? now wanted.collection = firstDefinition? current wanted.collection)
    (hholds : inv.Holds wanted) :
    ∃ inv', inv.Runs (planEdges graph current wanted) inv' ∧ Defines graph [wanted] inv inv' := by
  have hdefinition : ∀ c, inv.definition? graph c = firstDefinition? now c := by
    intro c
    rw [definition?, hnow]
    rfl
  have hfound : firstDefinition? current wanted.collection =
      current.find? fun e => e.collection == wanted.collection := rfl
  have hwanted : ∀ edges, (∀ c, firstDefinition? edges c =
      if wanted.collection = c then some wanted else firstDefinition? now c) →
      Defines graph [wanted] inv (inv.withGraph graph edges) := by
    intro edges hedges
    apply defines_withGraph
    · intro e he
      obtain rfl := List.mem_singleton.mp he
      exact ⟨e, by rw [hedges, if_pos rfl], e.sameEnds_self⟩
    · intro c hc
      have hne : wanted.collection ≠ c := fun h => hc (by simp [h])
      rw [hedges, if_neg hne, hdefinition]
  rw [planEdges, ← hfound, ← hsame]
  cases hfirst : firstDefinition? now wanted.collection with
  | none =>
    have hdue : (SchemaChange.addEdges graph wanted).Due inv :=
      ⟨⟨now, hnow, firstDefinition?_eq_none_iff.mp hfirst⟩, hholds⟩
    refine ⟨_, .one hdue, ?_⟩
    rw [SchemaChange.apply, hnow]
    exact hwanted _ (firstDefinition?_append hfirst)
  | some found =>
    cases hends : found.sameEnds wanted with
    | true =>
      simp only [hends, if_true]
      refine ⟨inv, .nil inv, rfl, rfl, fun _ _ => rfl, by rw [hnow]; rfl, ?_, fun _ _ => rfl⟩
      intro e he
      obtain rfl := List.mem_singleton.mp he
      exact ⟨found, (hdefinition _).trans hfirst, hends⟩
    | false =>
      simp only [hends, Bool.false_eq_true, if_false]
      have hdue : (SchemaChange.replaceEdges graph wanted).Due inv :=
        ⟨⟨found, (hdefinition _).trans hfirst, hends⟩, hholds⟩
      refine ⟨_, .one hdue, ?_⟩
      rw [SchemaChange.apply, hnow]
      exact hwanted _ (firstDefinition?_replace hfirst)

/-- The plans of different edge collections of a graph do not disturb one another. -/
theorem planEdges_all_runs {current : List EdgeDefinition} {wanted : List EdgeDefinition}
    (hnodup : (wanted.map (·.collection)).Nodup) (hsome : (inv.graph? graph).isSome)
    (hsame : ∀ e ∈ wanted,
      inv.definition? graph e.collection = firstDefinition? current e.collection)
    (hholds : ∀ e ∈ wanted, inv.Holds e) :
    ∃ inv', inv.Runs (wanted.flatMap (planEdges graph current)) inv' ∧
      Defines graph wanted inv inv' := by
  induction wanted generalizing inv with
  | nil => exact ⟨inv, .nil inv, rfl, rfl, fun _ _ => rfl, hsome, by simp, fun _ _ => rfl⟩
  | cons e rest ih =>
    rw [List.map_cons, List.nodup_cons] at hnodup
    rw [List.forall_mem_cons] at hsame hholds
    obtain ⟨now, hnow⟩ := Option.isSome_iff_exists.mp hsome
    have hfirst : firstDefinition? now e.collection = firstDefinition? current e.collection := by
      rw [← hsame.1, definition?, hnow]
      rfl
    obtain ⟨mid, hmid, hdefines⟩ := planEdges_runs hnow hfirst hholds.1
    have hothers : ∀ e' ∈ rest, e'.collection ∉ [e].map (·.collection) := by
      intro e' he' hmem
      have heq : e'.collection = e.collection := by simpa using hmem
      exact hnodup.1 (heq ▸ List.mem_map_of_mem he')
    have hsame' : ∀ e' ∈ rest,
        mid.definition? graph e'.collection = firstDefinition? current e'.collection :=
      fun e' he' => (hdefines.kept _ (hothers e' he')).trans (hsame.2 e' he')
    have hholds' : ∀ e' ∈ rest, mid.Holds e' := fun e' he' =>
      hdefines.holds.mpr (hholds.2 e' he')
    obtain ⟨inv', hruns, hdefines'⟩ := ih hnodup.2 hdefines.isSome hsame' hholds'
    refine ⟨inv', hmid.append hruns, ?_⟩
    constructor
    · exact hdefines'.collections.trans hdefines.collections
    · exact hdefines'.edgeCollections.trans hdefines.edgeCollections
    · exact fun other h => (hdefines'.others other h).trans (hdefines.others other h)
    · exact hdefines'.isSome
    · intro e' he'
      rcases List.mem_cons.mp he' with rfl | he'
      · rw [Provides, hdefines'.kept _ hnodup.1]
        exact hdefines.provides e' List.mem_cons_self
      · exact hdefines'.provides e' he'
    · intro c hc
      rw [List.map_cons, List.mem_cons, not_or] at hc
      rw [hdefines'.kept c hc.2]
      exact hdefines.kept c (by simpa using hc.1)

/-- The plan of a graph, made for an inventory that knows the graph as the running one does. -/
theorem planGraph_runs {existing : Inventory} {wanted : GraphDefinition}
    (hnodup : (wanted.edges.map (·.collection)).Nodup)
    (hsame : inv.graph? wanted.name = existing.graph? wanted.name)
    (hholds : ∀ e ∈ wanted.edges, inv.Holds e) :
    ∃ inv', inv.Runs (planGraph existing wanted) inv' ∧
      Defines wanted.name wanted.edges inv inv' := by
  have hfound : existing.graph? wanted.name = Dict.find? existing.graphs wanted.name := rfl
  rw [planGraph, ← hfound]
  cases hgraph : existing.graph? wanted.name with
  | none =>
    rw [hgraph] at hsame
    have hdue : (SchemaChange.createGraph wanted).Due inv := ⟨hsame, hholds⟩
    refine ⟨_, .one hdue, defines_withGraph ?_ ?_⟩
    · intro e he
      exact ⟨e, firstDefinition?_of_mem hnodup he, e.sameEnds_self⟩
    · intro c hc
      rw [definition?, hsame]
      exact firstDefinition?_eq_none_iff.mpr fun e he h => hc (h ▸ List.mem_map_of_mem he)
  | some current =>
    rw [hgraph] at hsame
    refine planEdges_all_runs hnodup (by rw [hsame]; rfl) ?_ hholds
    intro e _
    rw [definition?, hsame]
    rfl

/-- The plans of different graphs do not disturb one another. -/
theorem planGraph_all_runs {existing : Inventory} {wanted : List GraphDefinition}
    (hnames : (wanted.map (·.name)).Nodup)
    (hnodup : ∀ d ∈ wanted, (d.edges.map (·.collection)).Nodup)
    (hsame : ∀ d ∈ wanted, inv.graph? d.name = existing.graph? d.name)
    (hholds : ∀ d ∈ wanted, ∀ e ∈ d.edges, inv.Holds e) :
    ∃ inv', inv.Runs (wanted.flatMap (planGraph existing)) inv' ∧
      inv'.collections = inv.collections ∧ inv'.edgeCollections = inv.edgeCollections ∧
      (∀ other, other ∉ wanted.map (·.name) → inv'.graph? other = inv.graph? other) ∧
      ∀ d ∈ wanted, (inv'.graph? d.name).isSome ∧ ∀ e ∈ d.edges, inv'.Provides d.name e := by
  induction wanted generalizing inv with
  | nil => exact ⟨inv, .nil inv, rfl, rfl, fun _ _ => rfl, by simp⟩
  | cons d rest ih =>
    rw [List.map_cons, List.nodup_cons] at hnames
    rw [List.forall_mem_cons] at hnodup hsame hholds
    obtain ⟨mid, hmid, hdefines⟩ := planGraph_runs hnodup.1 hsame.1 hholds.1
    have hne : ∀ d' ∈ rest, d'.name ≠ d.name := fun d' hd' h =>
      hnames.1 (h ▸ List.mem_map_of_mem hd')
    have hsame' : ∀ d' ∈ rest, mid.graph? d'.name = existing.graph? d'.name := fun d' hd' =>
      (hdefines.others _ (hne d' hd')).trans (hsame.2 d' hd')
    have hholds' : ∀ d' ∈ rest, ∀ e ∈ d'.edges, mid.Holds e := fun d' hd' e he =>
      hdefines.holds.mpr (hholds.2 d' hd' e he)
    obtain ⟨inv', hruns, hcollections, hedges, hothers, hprovides⟩ :=
      ih hnames.2 hnodup.2 hsame' hholds'
    refine ⟨inv', hmid.append hruns, hcollections.trans hdefines.collections,
      hedges.trans hdefines.edgeCollections, ?_, ?_⟩
    · intro other hother
      rw [List.map_cons, List.mem_cons, not_or] at hother
      exact (hothers other hother.2).trans (hdefines.others other hother.1)
    · intro d' hd'
      rcases List.mem_cons.mp hd' with rfl | hd'
      · have hkept := hothers d'.name hnames.1
        refine ⟨by rw [hkept]; exact hdefines.isSome, ?_⟩
        intro e he
        rw [Provides, definition?, hkept]
        exact hdefines.provides e he
      · exact hprovides d' hd'

/-- A graph that is defined as wanted needs nothing. -/
theorem planGraph_eq_nil {wanted : GraphDefinition} (hsome : (inv.graph? wanted.name).isSome)
    (hprovides : ∀ e ∈ wanted.edges, inv.Provides wanted.name e) : planGraph inv wanted = [] := by
  obtain ⟨current, hcurrent⟩ := Option.isSome_iff_exists.mp hsome
  have hplan : planGraph inv wanted = wanted.edges.flatMap (planEdges wanted.name current) := by
    rw [planGraph, show Dict.find? inv.graphs wanted.name = some current from hcurrent]
  rw [hplan, List.flatMap_eq_nil_iff]
  intro e he
  obtain ⟨found, hfound, hends⟩ := hprovides e he
  rw [definition?, hcurrent] at hfound
  have hfirst : current.find? (fun e' => e'.collection == e.collection) = some found := hfound
  rw [planEdges, hfirst]
  simp [hends]

end Inventory

end GraphMapper
