import GraphMapper.Proofs.Query.Built
import GraphMapper.Proofs.Query.Matching
import GraphMapper.Proofs.Query.Parts

/-!
# Statements without sorting, paging and totals

The statement of a built query whose stages are all `Stage.isPlain` is made (`Mapper.statement_plain`):
its clauses are those of the filters and traversals and then those of the inclusions. The rows of
the inclusions depend on the root document alone (`Bindings.including`).
-/

namespace GraphMapper

open Outcome Aql

variable {V : Type}

/-! ## What is known of the stages of a built draft -/

namespace Draft.Built

variable {m : Mapper} {d : Draft}

theorem hopped (h : Built m d) : Stage.Hopped m.topology d.stages := by
  intro t ht
  obtain ⟨-, hop, hhop, -⟩ := h.traversal ht
  exact ⟨hop, hhop⟩

/-- An inclusion goes along a hop of the root entity and has its cardinality. -/
theorem inclusion_hop (h : Built m d) {i : Inclusion} (hi : i ∈ d.query.inclusions) :
    ∃ hop, m.topology.hop d.entity i.relationship = .ok hop ∧ hop.cardinality = i.cardinality := by
  induction h with
  | start => cases hi
  | @add d s _ hs ih =>
    rw [Query.inclusions, query, stages_add, List.filterMap_append, List.mem_append] at hi
    rcases hi with hi | hi
    · exact ih hi
    · cases hs with
      | «include» hhop =>
        obtain rfl : i = _ := by simpa [Stage.inclusion?] using hi
        exact ⟨_, hhop, rfl⟩
      | _ => simp [Stage.inclusion?] at hi

theorem inclusion (h : Built m d) {i : Inclusion} (hi : i ∈ d.query.inclusions) :
    ∃ hop, m.topology.hop d.entity i.relationship = .ok hop := by
  obtain ⟨hop, hhop, -⟩ := h.inclusion_hop hi
  exact ⟨hop, hhop⟩

/-- No relation is included twice. -/
theorem inclusions_nodup (h : Built m d) : (d.query.inclusions.map (·.relationship)).Nodup := by
  induction h with
  | start => exact List.nodup_nil
  | @add d s _ hs ih =>
    have hstages : (d.add s).query.inclusions = d.query.inclusions ++ s.inclusion?.toList := by
      cases hi : s.inclusion? <;> simp [Query.inclusions, query, hi]
    rw [hstages, List.map_append]
    cases hs with
    | «include» _ hnew =>
      refine List.nodup_append.mpr ⟨ih, List.nodup_singleton _, ?_⟩
      intro name hname other hother
      obtain ⟨i, hi, rfl⟩ := List.mem_map.mp hname
      obtain rfl := List.mem_singleton.mp hother
      exact hnew i hi
    | _ => simpa [Stage.inclusion?] using ih

theorem parameters (h : Built m d) :
    ∀ s ∈ d.stages, ∀ name ∈ s.parameters, isParameterName name = true := by
  induction h with
  | start => simp
  | @add d s _ hs ih =>
    intro s' hs'
    rcases List.mem_append.mp hs' with hs' | hs'
    · exact ih s' hs'
    · obtain rfl := List.mem_singleton.mp hs'
      cases hs with
      | filter _ hnames => exact hnames
      | _ => simp [Stage.parameters]

end Draft.Built

/-! ## Plain stages -/

/-- Stages that neither sort nor cut nor aggregate rows. -/
def Stage.isPlain : Stage → Bool
  | order _ _ => false
  | limit _ _ => false
  | aggregate _ => false
  | _ => true

/-- Plain stages have an outline without totals. -/
theorem Outline.addStages_plain {stages : List Stage} (h : ∀ s ∈ stages, s.isPlain = true)
    {o : Outline} (ho : o.totals = []) :
    ∃ o', stages.foldlM addStage o = .ok o' ∧ o'.totals = [] := by
  induction stages generalizing o with
  | nil => exact ⟨o, rfl, ho⟩
  | cons s rest ih =>
    have hrest := fun s' hs' => h s' (List.mem_cons_of_mem _ hs')
    cases s with
    | filter p => exact ih hrest ho
    | traverse t => exact ih hrest ho
    | project fields => exact ih hrest (o := { o with projection := addFields o.projection fields }) ho
    | «include» i => exact ih hrest (o := { o with included := true }) ho
    | order fields direction => exact absurd (h _ List.mem_cons_self) (by simp [Stage.isPlain])
    | limit count offset => exact absurd (h _ List.mem_cons_self) (by simp [Stage.isPlain])
    | aggregate a => exact absurd (h _ List.mem_cons_self) (by simp [Stage.isPlain])

theorem Outline.ofQuery_plain {q : Query} (h : ∀ s ∈ q.stages, s.isPlain = true) :
    ∃ o, ofQuery q = .ok o ∧ o.totals = [] := by
  obtain ⟨o, hrun, htotals⟩ := addStages_plain h (o := {}) rfl
  exact ⟨o, bind_eq_ok.mpr ⟨o, hrun, by simp [htotals]⟩, htotals⟩

/-- Plain stages neither sort nor cut. -/
theorem paging_plain {sortKey : FieldPath → Except Error Expr} {stages : List Stage}
    (h : ∀ s ∈ stages, s.isPlain = true) : paging sortKey [] stages = .ok [] := by
  induction stages with
  | nil => rfl
  | cons s rest ih =>
    have hrest := ih fun s' hs' => h s' (List.mem_cons_of_mem _ hs')
    cases s with
    | order fields direction => exact absurd (h _ List.mem_cons_self) (by simp [Stage.isPlain])
    | limit count offset => exact absurd (h _ List.mem_cons_self) (by simp [Stage.isPlain])
    | _ => exact hrest

/-! ## Inclusions -/

theorem inclusionClauses_ok {topology : Topology} {entity : String} {is : List Inclusion}
    (h : ∀ i ∈ is, ∃ hop, topology.hop entity i.relationship = .ok hop) (index : Nat) :
    ∃ clauses, inclusionClauses topology entity index is = .ok clauses := by
  induction is generalizing index with
  | nil => exact ⟨[], rfl⟩
  | cons i rest ih =>
    obtain ⟨⟨hop, hhop⟩, hrest⟩ := List.forall_mem_cons.mp h
    obtain ⟨clauses, hclauses⟩ := ih hrest (index + 1)
    have hclause : i.clause topology entity index =
        .ok (.neighbours index i.cardinality hop.edges) := bind_eq_ok.mpr ⟨hop, hhop, rfl⟩
    exact ⟨_, bind_eq_ok.mpr ⟨_, hclause, bind_eq_ok.mpr ⟨clauses, hclauses, rfl⟩⟩⟩

/-- The bindings with the handles of inclusions. -/
def Aql.Bindings.including (db : Database V) (b : Bindings V) : List Clause → Bindings V
  | [] => b
  | .neighbours index cardinality edges :: rest =>
    including db (b.set (.included index)
      (included db index cardinality edges (b.value .doc))) rest
  | _ :: rest => including db b rest

namespace Aql.Bindings

variable {db : Database V} {b b' : Bindings V}

theorem tables_inclusions {slot : Slot → V} {clauses : List Clause}
    (h : ∀ c ∈ clauses, c.Includes) (rows : List (Bindings V)) :
    Clause.tables db slot rows clauses = rows.map fun b => b.including db clauses := by
  induction clauses generalizing rows with
  | nil => simp [including]
  | cons c rest ih =>
    obtain ⟨index, cardinality, edges, rfl⟩ := h c List.mem_cons_self
    rw [Clause.tables_cons, ih fun c hc => h c (List.mem_cons_of_mem _ hc), Clause.table,
      List.map_map]
    rfl

/-- Inclusions leave columns and all other variables alone. -/
theorem including_value {v : Var} (hv : ∀ n, v ≠ .included n) (clauses : List Clause) :
    (b.including db clauses).value v = b.value v := by
  induction clauses generalizing b with
  | nil => rfl
  | cons c rest ih =>
    cases c with
    | neighbours index cardinality edges =>
      rw [including, ih, set_value, if_neg (hv index)]
    | _ => exact ih

theorem including_columns (clauses : List Clause) :
    (b.including db clauses).columns = b.columns := by
  induction clauses generalizing b with
  | nil => rfl
  | cons c rest ih =>
    cases c with
    | neighbours index cardinality edges => exact ih
    | _ => exact ih

/-- Both have the same root document and the same inclusions. -/
structure SameRoot (b b' : Bindings V) : Prop where
  doc : b.value .doc = b'.value .doc
  included : ∀ n, b.value (.included n) = b'.value (.included n)

theorem SameRoot.refl (b : Bindings V) : SameRoot b b := ⟨rfl, fun _ => rfl⟩

theorem SameRoot.trans {b'' : Bindings V} (h : SameRoot b b') (h' : SameRoot b' b'') :
    SameRoot b b'' :=
  ⟨h.doc.trans h'.doc, fun n => (h.included n).trans (h'.included n)⟩

variable (db) in
theorem SameRoot.including (h : SameRoot b b') (clauses : List Clause) :
    SameRoot (b.including db clauses) (b'.including db clauses) := by
  induction clauses generalizing b b' with
  | nil => exact h
  | cons c rest ih =>
    cases c with
    | neighbours index cardinality edges =>
      refine ih ⟨?_, ?_⟩
      · simpa using h.doc
      · intro n
        rw [set_value, set_value, h.doc, h.included]
    | _ => exact ih h

end Aql.Bindings

/-! ## The statement -/

/-- The statement of a plain query: filters and traversals, then inclusions. -/
theorem Mapper.statement_plain {m : Mapper} {q : Query} (hplain : ∀ s ∈ q.stages, s.isPlain = true)
    (hincluded : ∀ i ∈ q.inclusions, ∃ hop, m.topology.hop q.entity i.relationship = .ok hop) :
    ∃ (o : Outline) (clauses : List Clause), o.totals = [] ∧
      (∀ f ∈ o.projection, f ∈ q.stages.flatMap Stage.laterFields) ∧
      (∀ c ∈ clauses, c.Includes) ∧ ∀ settings matching,
        q.matching m.topology (q.isJoined settings) = .ok matching →
          ({ m with settings } : Mapper).statement q = .ok
            { Statement.closed (.read q.collection (matching ++ clauses)
                (o.result q (if q.isJoined settings then q.columns else [])))
                (literalValues (q.literals (q.isJoined settings))) with
              unbound := q.parameters
              parameters := q.parameters } := by
  obtain ⟨o, ho, htotals⟩ := Outline.ofQuery_plain hplain
  obtain ⟨clauses, hclauses⟩ := inclusionClauses_ok hincluded 0
  have hall := includes_of_inclusionClauses hclauses
  refine ⟨o, clauses, htotals, (Outline.ofQuery_within ho).projection, hall, ?_⟩
  intro settings matching hmatching
  refine bind_eq_ok.mpr ⟨o, ho, bind_eq_ok.mpr ⟨matching, hmatching,
    bind_eq_ok.mpr ⟨clauses, hclauses, bind_eq_ok.mpr ⟨[], paging_plain hplain, ?_⟩⟩⟩⟩
  simp [Outline.collect, htotals, pure, Except.pure]

end GraphMapper
