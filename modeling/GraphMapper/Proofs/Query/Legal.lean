import GraphMapper.Proofs.Mapper
import GraphMapper.Proofs.Query.Distinct

/-!
# Legal queries

A built query has a statement exactly if it is legal (`Mapper.exists_statement_iff`). Its hops are
never what is wrong: those of a built query are there when the statement is made. What is left are
three runs over the stages. The outline asks something of each stage alone (`Stage.Sound`) and that
aggregations group alike, then that totals stand alone; the sort keys are looked up while paging.
-/

namespace GraphMapper

open Outcome Aql

/-! ## Aggregations -/

/-- The names of aggregate functions, in small letters. -/
def Aql.Function.names : List String := ["count", "sum", "average", "avg", "min", "max"]

theorem Aql.Function.exists_ofName_iff {name : String} :
    (∃ f, ofName name = .ok f) ↔ Text.toLowerAscii name ∈ names := by
  unfold ofName ofName? names
  generalize Text.toLowerAscii name = small
  split
  · next f hf => split at hf <;> simp_all
  · next hnone => split at hnone <;> simp_all

/-- The paths that the rows are grouped by. -/
def Aggregation.groupPaths (a : Aggregation) : List String := a.groupBy.map (·.path)

def Stage.aggregation? : Stage → Option Aggregation
  | aggregate a => some a
  | _ => none

def Query.aggregations (q : Query) : List Aggregation := q.stages.filterMap Stage.aggregation?

theorem Query.mem_aggregations {q : Query} {a : Aggregation} :
    a ∈ q.aggregations ↔ .aggregate a ∈ q.stages := by
  rw [aggregations, List.mem_filterMap]
  constructor
  · rintro ⟨s, hs, ha⟩
    cases s with
    | aggregate b => exact Option.some.inj ha ▸ hs
    | _ => cases ha
  · exact fun h => ⟨_, h, rfl⟩

/-! ## Legal queries -/

/-- A query that a statement can be made of. -/
structure Query.Legal (q : Query) : Prop where
  limits : ∀ count offset, .limit count offset ∈ q.stages → 0 < count.toInt ∧ 0 ≤ offset.toInt
  functions : ∀ a, .aggregate a ∈ q.stages → Text.toLowerAscii a.function ∈ Function.names
  groups : ∀ a b, .aggregate a ∈ q.stages → .aggregate b ∈ q.stages → a.groupPaths = b.groupPaths
  projections : ∀ a fields, .aggregate a ∈ q.stages → .project fields ∉ q.stages
  inclusions : ∀ a i, .aggregate a ∈ q.stages → .include i ∉ q.stages
  orders : ∀ a fields direction, .aggregate a ∈ q.stages → .order fields direction ∈ q.stages →
    ∀ f ∈ fields, f.path ∈ a.groupPaths

/-! ## Stages of the outline -/

/-- The stage is right whatever stands before it. -/
def Stage.Sound : Stage → Prop
  | limit count offset => 0 < count.toInt ∧ 0 ≤ offset.toInt
  | aggregate a => Text.toLowerAscii a.function ∈ Function.names
  | _ => True

namespace Outline

variable {o o' : Outline} {s : Stage} {stages : List Stage}

/-- The aggregations whose totals are wanted. -/
def aggregations (o : Outline) : List Aggregation := o.totals.map (·.1)

theorem aggregations_eq_nil_iff : o.aggregations = [] ↔ o.totals = [] := List.map_eq_nil_iff

/-- Aggregations group as the first of them does. -/
def Uniform (as : List Aggregation) (a : Aggregation) : Prop :=
  ∀ first ∈ as.head?, first.groupPaths = a.groupPaths

theorem uniform_iff {as : List Aggregation} :
    (∀ a ∈ as, Uniform as a) ↔ ∀ a ∈ as, ∀ b ∈ as, a.groupPaths = b.groupPaths := by
  cases as with
  | nil => simp
  | cons first rest =>
    have hfirst : ∀ a, Uniform (first :: rest) a ↔ first.groupPaths = a.groupPaths := by
      simp [Uniform]
    simp only [hfirst]
    constructor
    · intro h a ha b hb
      exact (h a ha).symm.trans (h b hb)
    · exact fun h a ha => h first List.mem_cons_self a ha

theorem uniform_append {as rest : List Aggregation} {a : Aggregation} :
    Uniform (as ++ a :: rest) a ↔ Uniform as a := by
  cases as <;> simp [Uniform]

theorem addFields_eq_nil_iff {fields fs : List FieldPath} :
    addFields fields fs = [] ↔ fields = [] ∧ fs = [] := by
  induction fs generalizing fields with
  | nil => simp [addFields]
  | cons f rest ih =>
    rw [addFields, ih]
    cases fields <;> simp
    split <;> simp

/-- What a stage adds to an outline. -/
structure Extends (o : Outline) (s : Stage) (o' : Outline) : Prop where
  aggregations : o'.aggregations = o.aggregations ++ s.aggregation?.toList
  included : o'.included = (o.included || s.inclusion?.isSome)
  projection : o'.projection = [] ↔ o.projection = [] ∧ ∀ fields, s = .project fields → fields = []

/-- A stage that is no aggregation, inclusion or projection may leave the outline alone. -/
theorem extends_self (ha : s.aggregation? = none) (hi : s.inclusion? = none)
    (hp : ∀ fields, s ≠ .project fields) : o.Extends s o where
  aggregations := by rw [ha, Option.toList_none, List.append_nil]
  included := by rw [hi, Option.isSome_none, Bool.or_false]
  projection := (and_iff_left fun fields hs => absurd hs (hp fields)).symm

theorem addStage_extends (h : addStage o s = .ok o') : o.Extends s o' := by
  cases s with
  | limit count offset =>
    obtain rfl := addStage_limit h
    exact extends_self rfl rfl (by simp)
  | aggregate a =>
    obtain ⟨function, -, rfl⟩ := addStage_aggregate h
    exact ⟨by simp [Outline.aggregations, Stage.aggregation?], by simp [Stage.inclusion?], by simp⟩
  | project fields =>
    obtain rfl := Except.ok.inj h
    exact ⟨by simp [Outline.aggregations, Stage.aggregation?], by simp [Stage.inclusion?],
      by simp [addFields_eq_nil_iff]⟩
  | «include» i =>
    obtain rfl := Except.ok.inj h
    exact ⟨by simp [Outline.aggregations, Stage.aggregation?], by simp [Stage.inclusion?], by simp⟩
  | _ =>
    obtain rfl := Except.ok.inj h
    exact extends_self rfl rfl (by simp)

/-- A stage can be added if it is sound and groups as the first aggregation before it. -/
theorem exists_addStage_iff : (∃ o', addStage o s = .ok o') ↔
    s.Sound ∧ ∀ a ∈ s.aggregation?, Uniform o.aggregations a := by
  cases s with
  | limit count offset =>
    have hrange : ¬ (count.toInt ≤ 0 ∨ offset.toInt < 0) ↔ 0 < count.toInt ∧ 0 ≤ offset.toInt := by
      omega
    by_cases hrefused : count.toInt ≤ 0 ∨ offset.toInt < 0 <;>
      simp [addStage, Stage.Sound, Stage.aggregation?, ← hrange, hrefused]
  | aggregate a =>
    have hnamed : (Stage.aggregate a).Sound ↔ ∃ f, Function.ofName a.function = .ok f :=
      Function.exists_ofName_iff.symm
    rw [hnamed]
    cases hfunction : Function.ofName a.function with
    | error e => simp [addStage, hfunction, bind, Except.bind]
    | ok function =>
      cases htotals : o.totals with
      | nil =>
        simp [addStage, hfunction, htotals, bind, Except.bind, Stage.aggregation?, Uniform,
          Outline.aggregations, pure, Except.pure]
      | cons first rest =>
        by_cases halike : first.1.groupPaths = a.groupPaths <;>
        simp_all [addStage, bind, Except.bind, Stage.aggregation?, Uniform,
          Outline.aggregations, pure, Except.pure, Aggregation.groupPaths]
  | _ => simp [addStage, Stage.Sound, Stage.aggregation?, pure, Except.pure]

/-- What a run over stages adds to an outline. -/
theorem addStages_extends (h : stages.foldlM addStage o = .ok o') :
    o'.aggregations = o.aggregations ++ stages.filterMap Stage.aggregation? ∧
      (o'.included = true ↔ o.included = true ∨ ∃ i, .include i ∈ stages) ∧
      (o'.projection = [] ↔
        o.projection = [] ∧ ∀ fields, .project fields ∈ stages → fields = []) := by
  induction stages generalizing o with
  | nil =>
    obtain rfl := pure_eq_ok.mp h
    simp
  | cons s rest ih =>
    rw [List.foldlM_cons] at h
    obtain ⟨t, ht, h⟩ := bind_eq_ok.mp h
    obtain ⟨haggregations, hincluded, hprojection⟩ := ih h
    have hstep := addStage_extends ht
    refine ⟨?_, ?_, ?_⟩
    · rw [haggregations, hstep.aggregations, List.append_assoc]
      cases ha : s.aggregation? <;> simp [ha]
    · rw [hincluded, hstep.included]
      cases s <;> simp [Stage.inclusion?]
    · rw [hprojection, hstep.projection]
      simp only [List.mem_cons, or_imp, forall_and, and_assoc, eq_comm]

/-- Stages can be added to an outline if they are sound and group as the first aggregation does. -/
theorem exists_addStages_iff : (∃ o', stages.foldlM addStage o = .ok o') ↔
    (∀ s ∈ stages, s.Sound) ∧ ∀ a ∈ stages.filterMap Stage.aggregation?,
      Uniform (o.aggregations ++ stages.filterMap Stage.aggregation?) a := by
  induction stages generalizing o with
  | nil => simp [pure, Except.pure]
  | cons s rest ih =>
    have huniform : (∀ a ∈ (s :: rest).filterMap Stage.aggregation?,
          Uniform (o.aggregations ++ (s :: rest).filterMap Stage.aggregation?) a) ↔
        (∀ a ∈ s.aggregation?, Uniform o.aggregations a) ∧
          ∀ a ∈ rest.filterMap Stage.aggregation?, Uniform
            (o.aggregations ++ s.aggregation?.toList ++ rest.filterMap Stage.aggregation?) a := by
      cases ha : s.aggregation? <;> simp [ha, uniform_append]
    rw [List.foldlM_cons, exists_bind_iff, huniform, List.forall_mem_cons]
    constructor
    · rintro ⟨t, ht, hrest⟩
      obtain ⟨hs, hfirst⟩ := exists_addStage_iff.mp ⟨t, ht⟩
      obtain ⟨hsound, halike⟩ := ih.mp hrest
      rw [(addStage_extends ht).aggregations] at halike
      exact ⟨⟨hs, hsound⟩, hfirst, halike⟩
    · rintro ⟨⟨hs, hsound⟩, hfirst, halike⟩
      obtain ⟨t, ht⟩ := exists_addStage_iff.mpr ⟨hs, hfirst⟩
      rw [← (addStage_extends ht).aggregations] at halike
      exact ⟨t, ht, ih.mpr ⟨hsound, halike⟩⟩

/-! ## The outline of a query -/

theorem ofQuery_eq_ok_iff {q : Query} : ofQuery q = .ok o ↔
    q.stages.foldlM addStage {} = .ok o ∧
      (o.aggregations ≠ [] → o.projection = [] ∧ o.included = false) := by
  rw [ofQuery, bind_eq_ok]
  constructor
  · rintro ⟨t, hrun, h⟩
    dsimp only at h
    split at h
    · obtain ⟨hprojection, h⟩ := guard_eq_ok.mp h
      obtain ⟨hincluded, h⟩ := guard_eq_ok.mp h
      obtain rfl := pure_eq_ok.mp h
      exact ⟨hrun, fun _ => ⟨by simpa using hprojection, by simpa using hincluded⟩⟩
    · next htotals =>
      obtain rfl := pure_eq_ok.mp h
      have hnone : t.aggregations = [] := aggregations_eq_nil_iff.mpr (by simpa using htotals)
      exact ⟨hrun, fun hsome => absurd hnone hsome⟩
  · rintro ⟨hrun, halone⟩
    refine ⟨o, hrun, ?_⟩
    dsimp only
    split
    · next htotals =>
      obtain ⟨hprojection, hincluded⟩ :=
        halone (mt aggregations_eq_nil_iff.mp (by simpa using htotals))
      exact guard_eq_ok.mpr ⟨by simp [hprojection], guard_eq_ok.mpr ⟨by simp [hincluded], rfl⟩⟩
    · rfl

/-- The aggregations of a query are those of its stages. -/
theorem aggregations_ofQuery {q : Query} (h : ofQuery q = .ok o) :
    o.aggregations = q.aggregations := by
  obtain ⟨hrun, -⟩ := ofQuery_eq_ok_iff.mp h
  exact (addStages_extends hrun).1

/-- A query whose projections are not empty has an outline if its stages are sound, its aggregations
group alike, and no projection or inclusion stands beside them. -/
theorem exists_ofQuery_iff {q : Query}
    (hprojects : ∀ fields, .project fields ∈ q.stages → fields ≠ []) :
    (∃ o, ofQuery q = .ok o) ↔ (∀ s ∈ q.stages, s.Sound) ∧
      (∀ a ∈ q.aggregations, ∀ b ∈ q.aggregations, a.groupPaths = b.groupPaths) ∧
      (q.aggregations ≠ [] →
        (∀ fields, .project fields ∉ q.stages) ∧ ∀ i, .include i ∉ q.stages) := by
  have halone : ∀ o, q.stages.foldlM addStage {} = .ok o →
      ((o.aggregations ≠ [] → o.projection = [] ∧ o.included = false) ↔
        (q.aggregations ≠ [] →
          (∀ fields, .project fields ∉ q.stages) ∧ ∀ i, .include i ∉ q.stages)) := by
    intro o hrun
    obtain ⟨haggregations, hincluded, hprojection⟩ := addStages_extends hrun
    have hnone : o.included = false ↔ ∀ i, .include i ∉ q.stages := by
      rw [← Bool.not_eq_true, hincluded]
      simp
    have hempty : o.projection = [] ↔ ∀ fields, .project fields ∉ q.stages := by
      rw [hprojection]
      constructor
      · exact fun h fields hfields => hprojects fields hfields (h.2 fields hfields)
      · exact fun h => ⟨rfl, fun fields hfields => absurd hfields (h fields)⟩
    rw [haggregations, hnone, hempty]
    rfl
  rw [← uniform_iff, ← and_assoc]
  have hrun : (∃ o, q.stages.foldlM addStage {} = .ok o) ↔
      (∀ s ∈ q.stages, s.Sound) ∧ ∀ a ∈ q.aggregations, Uniform q.aggregations a :=
    exists_addStages_iff
  rw [← hrun]
  constructor
  · rintro ⟨o, ho⟩
    obtain ⟨hrun, h⟩ := ofQuery_eq_ok_iff.mp ho
    exact ⟨⟨o, hrun⟩, (halone o hrun).mp h⟩
  · rintro ⟨⟨o, hrun⟩, h⟩
    exact ⟨o, ofQuery_eq_ok_iff.mpr ⟨hrun, (halone o hrun).mpr h⟩⟩

end Outline

/-! ## Sort keys -/

/-- After an aggregation a field is sorted by if the first aggregation groups by its path. -/
theorem Outline.exists_sortKey_iff {o : Outline} (columns : List Expr) {f : FieldPath} :
    (∃ e, o.sortKey columns f = .ok e) ↔
      ∀ first ∈ o.aggregations.head?, f.path ∈ first.groupPaths := by
  cases htotals : o.totals with
  | nil => simp [sortKey, aggregations, htotals]
  | cons first rest =>
    have hgroups : o.groups = first.1.groupBy := by simp [groups, htotals]
    have hgrouped : f.path ∈ first.1.groupPaths ↔
        (o.groups.findIdx? fun g => g.path == f.path).isSome := by
      simp [hgroups, Aggregation.groupPaths]
    simp only [aggregations, htotals, List.map_cons, List.head?_cons, Option.mem_some_iff,
      forall_eq', hgrouped]
    cases hfind : o.groups.findIdx? fun g => g.path == f.path <;>
      simp [sortKey, htotals, hfind]

/-- Stages can be paged if there is a key for each field that they sort by. -/
theorem exists_paging_iff {sortKey : FieldPath → Except Error Expr}
    {pending : List (Expr × SortDirection)} {stages : List Stage} :
    (∃ pages, paging sortKey pending stages = .ok pages) ↔
      ∀ fields direction, .order fields direction ∈ stages →
        ∀ f ∈ fields, ∃ e, sortKey f = .ok e := by
  induction stages generalizing pending with
  | nil => simp [paging]
  | cons s rest ih =>
    cases s with
    | order fields direction =>
      have hkeys : (∃ keys, fields.mapM (fun f => do return (← sortKey f, direction)) = .ok keys) ↔
          ∀ f ∈ fields, ∃ e, sortKey f = .ok e := by
        simp only [exists_mapM_iff, exists_bind_iff, pure_eq_ok, exists_eq', and_true]
      rw [paging, exists_bind_iff]
      simp only [ih, exists_and_right, hkeys, List.mem_cons, Stage.order.injEq, or_imp, forall_and,
        and_imp, forall_eq, forall_eq_apply_imp_iff]
    | limit count offset =>
      rw [paging, exists_bind_iff]
      simp only [pure_eq_ok, exists_eq', and_true, ih]
      simp
    | _ => simpa [paging] using ih

/-! ## Statements of built queries -/

/-- A projection of a built query has fields. -/
theorem Draft.Built.project_ne_nil {m : Mapper} {d : Draft} (h : Built m d) :
    ∀ fields, .project fields ∈ d.stages → fields ≠ [] := by
  induction h with
  | start => simp
  | @add d s _ hs ih =>
    intro fields hfields
    rcases List.mem_append.mp hfields with hfields | hfields
    · exact ih fields hfields
    · obtain rfl := List.mem_singleton.mp hfields
      cases hs with
      | project _ hne => exact hne

/-- A query has a statement if it has an outline and all its fields to sort by have keys, provided
that the topology has its hops. -/
theorem Mapper.exists_statement_iff_outline {m : Mapper} {q : Query}
    (hhops : Stage.Hopped m.topology q.stages)
    (hincluded : ∀ i ∈ q.inclusions, ∃ hop, m.topology.hop q.entity i.relationship = .ok hop) :
    (∃ st, m.statement q = .ok st) ↔ ∃ o, Outline.ofQuery q = .ok o ∧
      ∀ fields direction, .order fields direction ∈ q.stages →
        ∀ f ∈ fields, ∀ first ∈ o.aggregations.head?, f.path ∈ first.groupPaths := by
  simp only [← Outline.exists_sortKey_iff (q.columnsOf (q.isJoined m.settings))]
  constructor
  · rintro ⟨st, hst⟩
    obtain ⟨_, o, -, -, pages, rfl, ho, -, -, hpages, -⟩ := statement_eq_ok hst
    exact ⟨o, ho, exists_paging_iff.mp ⟨pages, hpages⟩⟩
  · rintro ⟨o, ho, hkeys⟩
    obtain ⟨matching, hmatching⟩ := Query.matching_ok (q := q) hhops (q.isJoined m.settings)
    obtain ⟨inclusions, hinclusions⟩ := inclusionClauses_ok hincluded 0
    obtain ⟨pages, hpages⟩ := exists_paging_iff.mpr hkeys
    exact ⟨_, bind_eq_ok.mpr ⟨o, ho, bind_eq_ok.mpr ⟨matching, hmatching,
      bind_eq_ok.mpr ⟨inclusions, hinclusions, bind_eq_ok.mpr ⟨pages, hpages, rfl⟩⟩⟩⟩⟩

/-- Of legal queries the stages are sound, the aggregations group alike and stand alone, and what is
sorted by is a group of the first. -/
theorem Query.legal_iff {q : Query} : q.Legal ↔
    ((∀ s ∈ q.stages, s.Sound) ∧
      (∀ a ∈ q.aggregations, ∀ b ∈ q.aggregations, a.groupPaths = b.groupPaths) ∧
      (q.aggregations ≠ [] →
        (∀ fields, .project fields ∉ q.stages) ∧ ∀ i, .include i ∉ q.stages)) ∧
    ∀ fields direction, .order fields direction ∈ q.stages →
      ∀ f ∈ fields, ∀ first ∈ q.aggregations.head?, f.path ∈ first.groupPaths := by
  constructor
  · rintro ⟨hlimits, hfunctions, hgroups, hprojections, hinclusions, horders⟩
    refine ⟨⟨fun s hs => ?_, fun a ha b hb => ?_, fun hsome => ?_⟩, ?_⟩
    · cases s with
      | limit count offset => exact hlimits count offset hs
      | aggregate a => exact hfunctions a hs
      | _ => trivial
    · exact hgroups a b (mem_aggregations.mp ha) (mem_aggregations.mp hb)
    · obtain ⟨a, ha⟩ := List.exists_mem_of_ne_nil _ hsome
      have ha := mem_aggregations.mp ha
      exact ⟨fun fields => hprojections a fields ha, fun i => hinclusions a i ha⟩
    · intro fields direction hs f hf first hfirst
      have hfirst := mem_aggregations.mp (List.mem_of_head? hfirst)
      exact horders first fields direction hfirst hs f hf
  · rintro ⟨⟨hsound, hgroups, halone⟩, horders⟩
    have hsome : ∀ a, .aggregate a ∈ q.stages → q.aggregations ≠ [] := fun a ha =>
      List.ne_nil_of_mem (mem_aggregations.mpr ha)
    refine ⟨fun count offset hs => hsound _ hs, fun a hs => hsound _ hs, fun a b ha hb => ?_,
      fun a fields ha => (halone (hsome a ha)).1 fields,
      fun a i ha => (halone (hsome a ha)).2 i, ?_⟩
    · exact hgroups a (mem_aggregations.mpr ha) b (mem_aggregations.mpr hb)
    · intro a fields direction ha hs f hf
      have hhead := mt List.head?_eq_none_iff.mp (hsome a ha)
      obtain ⟨first, hfirst⟩ := Option.ne_none_iff_exists'.mp hhead
      have hsame := hgroups first (List.mem_of_head? hfirst) a (mem_aggregations.mpr ha)
      exact hsame ▸ horders fields direction hs f hf first hfirst

/-- A built query has a statement exactly if it is legal, and the topology has all its hops. -/
theorem Mapper.exists_statement_iff {m : Mapper} {entity : String} {ops : List Operation}
    {q : Query} (hq : m.query entity ops = .ok q) :
    ((∃ st, m.statement q = .ok st) ↔ q.Legal) ∧
      (∀ t ∈ q.traversals, ∃ hop, m.topology.hop t.source t.relationship = .ok hop) ∧
      ∀ i ∈ q.inclusions, ∃ hop, m.topology.hop q.entity i.relationship = .ok hop := by
  obtain ⟨d, hd, -, rfl⟩ := query_built hq
  have hincluded : ∀ i ∈ d.query.inclusions, ∃ hop,
      m.topology.hop d.query.entity i.relationship = .ok hop := fun i hi => hd.inclusion hi
  refine ⟨?_, fun t ht => ?_, hincluded⟩
  · rw [exists_statement_iff_outline hd.hopped hincluded, Query.legal_iff,
      ← Outline.exists_ofQuery_iff hd.project_ne_nil, ← exists_and_right]
    refine exists_congr fun o => and_congr_right fun ho => ?_
    rw [Outline.aggregations_ofQuery ho]
  · obtain ⟨-, hop, hhop, -⟩ := hd.traversal ht
    exact ⟨hop, hhop⟩

/-- Counting accounts by two paths, the groups of which they are sorted by. -/
theorem Mapper.exists_statement_iff_counted :
    ∃ q, Bank.mapper.query "Account" [.aggregate "Count" "id" ["balance", "owner.age"],
        .aggregate "MAX" "balance" ["balance", "owner.age"], .order ["owner.age"] .descending,
        .limit 10 0] = .ok q ∧
      ((∃ st, Bank.mapper.statement q = .ok st) ↔ q.Legal) ∧
      (∀ t ∈ q.traversals, ∃ hop, Bank.mapper.topology.hop t.source t.relationship = .ok hop) ∧
      ∀ i ∈ q.inclusions, ∃ hop, Bank.mapper.topology.hop q.entity i.relationship = .ok hop := by
  have hok : (Bank.mapper.query "Account" [.aggregate "Count" "id" ["balance", "owner.age"],
      .aggregate "MAX" "balance" ["balance", "owner.age"], .order ["owner.age"] .descending,
      .limit 10 0]).isOk = true := by decide +kernel
  obtain ⟨q, hq⟩ := exists_of_isOk hok
  exact ⟨q, hq, exists_statement_iff hq⟩

end GraphMapper
