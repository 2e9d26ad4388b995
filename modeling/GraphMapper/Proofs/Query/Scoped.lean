import GraphMapper.Proofs.Aql.Variables
import GraphMapper.Proofs.Mapper
import GraphMapper.Proofs.Query.Parts
import GraphMapper.Proofs.Query.Stages

/-!
# Statements in scope

Every variable of the statement of a query is read where it is visible (`Mapper.statement_scoped`).
Matching leaves the root document with what its traversals bind, or with the first match alone. Each
part after it reads what is visible then, and what it binds is new: inclusions have numbers of their
own, and groups and totals stand for everything before them.
-/

namespace GraphMapper

open Outcome Aql

/-! ## Clauses of filters and traversals -/

/-- Where a clause stands in a statement: matching, inclusions, groups, paging. -/
def Aql.Clause.phase : Clause → Nat
  | step _ => 0
  | firstMatch _ _ => 0
  | neighbours _ _ _ => 1
  | collect _ _ => 2
  | sort _ => 3
  | limit _ _ => 3

/-- The variables after matching, of which the last argument are those after all stages. -/
def afterMatching (joined : Bool) (visible : List Var) : List Var :=
  if joined then [.doc, .hit] else visible

theorem Draft.mem_afterMatching {d : Draft} {joined : Bool} {v : Var}
    (h : v ∈ afterMatching joined d.visible) : v = .doc ∨ v = .hit ∨ ∃ n, v = .step n := by
  cases joined with
  | false =>
    rw [afterMatching, if_neg Bool.false_ne_true, Draft.visible, List.mem_cons] at h
    rcases h with h | h
    · exact Or.inl h
    · obtain ⟨t, -, h⟩ := List.mem_map.mp h
      exact Or.inr (Or.inr ⟨t.index, h.symm⟩)
  | true =>
    rw [afterMatching, if_pos rfl, List.mem_pair] at h
    rcases h with h | h
    · exact Or.inl h
    · exact Or.inr (Or.inl h)

namespace Query

variable {q : Query} {topology : Topology} {joined : Bool} {visible : List Var}
  {clauses : List Clause}

/-- Joined, the steps in front of the first match bind nothing. -/
theorem leads_outer {steps : List Step}
    (hsteps : Stage.steps topology 0 (q.stages.filter (·.isRootFilter)) = .ok steps) :
    Leads Step.Scoped Step.after [.doc] steps [.doc] := by
  refine Stage.leads_steps (Stage.leads_rootFilters ?_ List.mem_cons_self) hsteps
  intro s hs
  exact (List.mem_filter.mp hs).2

variable (h : Leads Stage.Scoped Stage.after [.doc] q.stages visible)
include h

theorem later_visible {f : FieldPath} (hf : f ∈ q.stages.flatMap Stage.laterFields) :
    f.scope.var ∈ visible := by
  obtain ⟨s, hs, hf⟩ := List.mem_flatMap.mp hf
  exact Stage.fields_of_leads h hs (s.laterFields_subset hf)

/-- Joined, only the first match is left of what the traversals bind. -/
theorem leads_matching (hmatching : q.matching topology joined = .ok clauses) :
    Leads Clause.Scoped Clause.after [.doc] clauses (afterMatching joined visible) := by
  obtain ⟨outer, houter, hmatching⟩ := bind_eq_ok.mp hmatching
  cases joined with
  | false =>
    obtain rfl := pure_eq_ok.mp hmatching
    exact Clause.leads_steps (Stage.leads_steps h houter)
  | true =>
    obtain ⟨inner, hinner, hmatching⟩ := bind_eq_ok.mp hmatching
    obtain rfl := pure_eq_ok.mp hmatching
    have hinnerLeads := Stage.leads_steps (Stage.leads_others h) hinner
    have hcolumns : ∀ e ∈ q.columns, e.var ∈ visible := by
      intro e he
      obtain ⟨f, hf, -, rfl⟩ := mem_columns.mp he
      exact later_visible h hf
    -- the filters in front bind nothing, so the first match sees the root document alone
    have hmatch : (Clause.firstMatch inner q.columns).Scoped [.doc] :=
      ⟨by simp [Clause.reads], by simp [Clause.binds], by simp [Clause.binds],
        visible, hinnerLeads, hcolumns⟩
    exact (Clause.leads_steps (leads_outer houter)).append (.single hmatch)

/-- A field that is read later is read from a column, or from what is visible after matching. -/
theorem columnOr_visible {f : FieldPath} (hf : f ∈ q.stages.flatMap Stage.laterFields) :
    (columnOr (q.columnsOf joined) f).var ∈ afterMatching joined visible := by
  cases joined with
  | false => exact later_visible h hf
  | true =>
    rcases columnOr_cases q.columns f with ⟨n, -, heq⟩ | ⟨hnone, heq⟩
    · simp [columnsOf, heq, Expr.var, afterMatching]
    · have hroot : f.scope = .root := by
        by_contra hscope
        exact hnone (mem_columns.mpr ⟨f, hf, hscope, rfl⟩)
      simp [columnsOf, heq, FieldPath.expr, Expr.var, hroot, Scope.var, afterMatching]

end Query

/-! ## Inclusions -/

theorem leads_inclusions {topology : Topology} {entity : String} {is : List Inclusion}
    {index : Nat} {clauses : List Clause} {visible : List Var}
    (h : inclusionClauses topology entity index is = .ok clauses) (hdoc : .doc ∈ visible)
    (hincluded : ∀ n, .included n ∈ visible → n < index) (hneighbour : ∀ n, .neighbour n ∉ visible) :
    Leads Clause.Scoped Clause.after visible clauses
      (visible ++ (List.range' index is.length).map .included) := by
  induction is generalizing index clauses visible with
  | nil =>
    obtain rfl := Except.ok.inj h
    simpa using Leads.nil
  | cons i rest ih =>
    obtain ⟨clause, hclause, h⟩ := bind_eq_ok.mp h
    obtain ⟨others, hothers, h⟩ := bind_eq_ok.mp h
    obtain rfl := pure_eq_ok.mp h
    obtain ⟨hop, -, hclause⟩ := bind_eq_ok.mp hclause
    obtain rfl := pure_eq_ok.mp hclause
    have hfresh : .included index ∉ visible := fun hmem => Nat.lt_irrefl _ (hincluded index hmem)
    have hincluded' : ∀ n, .included n ∈ visible ++ [.included index] → n < index + 1 := by
      intro n hn
      rw [List.mem_append] at hn
      rcases hn with hn | hn
      · exact Nat.lt_succ_of_lt (hincluded n hn)
      · obtain rfl : n = index := by simpa using hn
        exact Nat.lt_succ_self n
    have hneighbour' : ∀ n, .neighbour n ∉ visible ++ [.included index] := by
      intro n hn
      rw [List.mem_append] at hn
      rcases hn with hn | hn
      · exact hneighbour n hn
      · simp at hn
    have hrest := ih hothers (List.mem_append_left _ hdoc) hincluded' hneighbour'
    refine .cons ⟨?_, ?_, ?_, hneighbour index⟩ ?_
    · simpa [Clause.reads] using hdoc
    · simpa [Clause.binds] using hfresh
    · simp [Clause.binds]
    · simpa [Clause.after, Clause.binds, List.range'_succ] using hrest

theorem phase_inclusions {topology : Topology} {entity : String} {is : List Inclusion}
    {index : Nat} {clauses : List Clause}
    (h : inclusionClauses topology entity index is = .ok clauses) : ∀ c ∈ clauses, c.phase = 1 := by
  intro c hc
  obtain ⟨n, cardinality, edges, rfl⟩ := includes_of_inclusionClauses h c hc
  rfl

/-! ## Groups, sorting and paging -/

namespace Outline

variable {o : Outline} {fields : List FieldPath} {columns : List Expr} {visible : List Var}

/-- The variables of groups and totals. -/
def collected (o : Outline) : List Var :=
  (List.range o.groups.length).map .group ++ (List.range o.totals.length).map .total

theorem mem_collected {v : Var} (h : v ∈ o.collected) : (∃ n, v = .group n) ∨ ∃ n, v = .total n := by
  rw [collected, List.mem_append] at h
  rcases h with h | h
  · obtain ⟨n, -, rfl⟩ := List.mem_map.mp h
    exact Or.inl ⟨n, rfl⟩
  · obtain ⟨n, -, rfl⟩ := List.mem_map.mp h
    exact Or.inr ⟨n, rfl⟩

theorem nodup_collected (o : Outline) : o.collected.Nodup := by
  refine List.nodup_append.mpr ⟨?_, ?_, ?_⟩
  · exact List.nodup_range.map fun _ _ => Var.group.inj
  · exact List.nodup_range.map fun _ _ => Var.total.inj
  · intro v hv w hw
    obtain ⟨n, -, rfl⟩ := List.mem_map.mp hv
    obtain ⟨k, -, rfl⟩ := List.mem_map.mp hw
    simp

theorem leads_collect (ho : o.Within fields)
    (hcolumns : ∀ f ∈ fields, (columnOr columns f).var ∈ visible)
    (hfresh : ∀ v ∈ o.collected, v ∉ visible) :
    Leads Clause.Scoped Clause.after visible (o.collect columns)
      (if o.totals.isEmpty then visible else o.collected) := by
  unfold collect
  split
  · exact .nil
  · have hbinds : (Clause.collect (o.groups.map (columnOr columns))
        (o.totals.map fun t => (t.2, columnOr columns t.1.field))).binds = o.collected := by
      simp [Clause.binds, collected]
    refine hbinds ▸ .single ⟨?_, hbinds ▸ hfresh, hbinds ▸ o.nodup_collected, trivial⟩
    intro v hv
    rw [Clause.reads, List.mem_append] at hv
    rcases hv with hv | hv
    · obtain ⟨e, he, rfl⟩ := List.mem_map.mp hv
      obtain ⟨g, hg, rfl⟩ := List.mem_map.mp he
      exact hcolumns g (ho.groups g hg)
    · obtain ⟨entry, hentry, rfl⟩ := List.mem_map.mp hv
      obtain ⟨t, ht, rfl⟩ := List.mem_map.mp hentry
      exact hcolumns _ (ho.totals t ht).1

/-- A sort key is a column, or a group after an aggregation. -/
theorem sortKey_visible (hcolumns : ∀ f ∈ fields, (columnOr columns f).var ∈ visible)
    {f : FieldPath} (hf : f ∈ fields) {e : Expr} (h : o.sortKey columns f = .ok e) :
    e.var ∈ if o.totals.isEmpty then visible else o.collected := by
  unfold sortKey at h
  split at h
  · next hnone =>
    obtain rfl := Except.ok.inj h
    simpa [hnone] using hcolumns f hf
  · next hsome =>
    rw [if_neg hsome]
    split at h
    · next n hn =>
      obtain rfl := Except.ok.inj h
      have hlt : n < o.groups.length := (List.findIdx?_eq_some_iff_getElem.mp hn).1
      exact List.mem_append_left _ (List.mem_map_of_mem (List.mem_range.mpr hlt))
    · cases h

/-- The result reads groups and totals, or columns and inclusions. -/
theorem result_visible {q : Query} (ho : o.Within fields) (hdoc : .doc ∈ visible)
    (hcolumns : ∀ f ∈ fields, (columnOr columns f).var ∈ visible)
    (hincluded : ∀ n < q.inclusions.length, .included n ∈ visible) :
    ∀ v ∈ (o.result q columns).reads, v ∈ if o.totals.isEmpty then visible else o.collected := by
  have hentries : ∀ e ∈ q.includedEntries, e.2.var ∈ visible := by
    intro e he
    obtain ⟨n, hn, rfl⟩ := List.mem_mapIdx.mp he
    exact hincluded n hn
  intro v hv
  unfold result at hv
  cases htotals : o.totals.isEmpty with
  | false =>
    rw [htotals] at hv
    simp only [Bool.not_false, if_true, Result.reads, List.mem_map, List.mem_append] at hv
    obtain ⟨e, he | he, rfl⟩ := hv
    · obtain ⟨n, hn, rfl⟩ := List.mem_mapIdx.mp he
      exact List.mem_append_left _ (List.mem_map_of_mem (List.mem_range.mpr hn))
    · obtain ⟨n, hn, rfl⟩ := List.mem_mapIdx.mp he
      exact List.mem_append_right _ (List.mem_map_of_mem (List.mem_range.mpr hn))
  | true =>
    simp only [htotals, Bool.not_true, Bool.false_eq_true, if_false] at hv
    split at hv
    · obtain ⟨e, he, rfl⟩ := List.mem_map.mp hv
      rw [List.mem_append] at he
      rcases he with he | he
      · obtain ⟨f, hf, rfl⟩ := List.mem_map.mp he
        exact hcolumns f (ho.projection f hf)
      · exact hentries e he
    · split at hv
      · rw [Result.reads, List.mem_cons] at hv
        rcases hv with rfl | hv
        · exact hdoc
        · obtain ⟨e, he, rfl⟩ := List.mem_map.mp hv
          exact hentries e he
      · exact List.mem_singleton.mp hv ▸ hdoc

end Outline

/-- Sorting and paging read what they sort by and bind nothing. -/
theorem leads_pages {pages : List Clause} {visible : List Var}
    (h : ∀ c ∈ pages, c.Pages fun e => e.var ∈ visible) :
    Leads Clause.Scoped Clause.after visible pages visible := by
  induction pages with
  | nil => exact .nil
  | cons c rest ih =>
    obtain ⟨hc, hrest⟩ := List.forall_mem_cons.mp h
    have hbinds : c.binds = [] := by cases hc <;> rfl
    have hafter : c.after visible = visible := by
      cases hc <;> simp [Clause.after, Clause.binds]
    refine .cons ⟨?_, by simp [hbinds], by simp [hbinds], ?_⟩ (hafter.symm ▸ ih hrest)
    · intro v hv
      cases hc with
      | sort hkeys =>
        obtain ⟨k, hk, rfl⟩ := List.mem_map.mp hv
        exact hkeys k hk
      | limit offset count => cases hv
    · cases hc <;> trivial

theorem phase_collect {o : Outline} {columns : List Expr} :
    ∀ c ∈ o.collect columns, c.phase = 2 := by
  intro c hc
  unfold Outline.collect at hc
  split at hc
  · cases hc
  · exact List.mem_singleton.mp hc ▸ rfl

theorem Aql.Clause.Pages.phase {P : Expr → Prop} {c : Clause} (h : c.Pages P) : c.phase = 3 := by
  cases h <;> rfl

theorem phase_paging {sortKey : FieldPath → Except Error Expr}
    {pending : List (Expr × SortDirection)} {stages : List Stage} {pages : List Clause}
    (h : paging sortKey pending stages = .ok pages) : ∀ c ∈ pages, c.phase = 3 := by
  intro c hc
  have hpage : c.Pages fun _ => True :=
    pages_of_paging h (fun _ _ _ _ => trivial) (fun _ _ => trivial) c hc
  exact hpage.phase

/-! ## The statement -/

namespace Query

variable {q : Query} {topology : Topology} {clauses : List Clause}

theorem phase_matching {joined : Bool} (h : q.matching topology joined = .ok clauses) :
    ∀ c ∈ clauses, c.phase = 0 := by
  have hsteps : ∀ steps : List Step, ∀ c ∈ steps.map Clause.step, c.phase = 0 := by
    intro steps c hc
    obtain ⟨s, -, rfl⟩ := List.mem_map.mp hc
    rfl
  obtain ⟨outer, -, h⟩ := bind_eq_ok.mp h
  cases joined with
  | false =>
    obtain rfl := pure_eq_ok.mp h
    exact hsteps outer
  | true =>
    obtain ⟨inner, -, h⟩ := bind_eq_ok.mp h
    obtain rfl := pure_eq_ok.mp h
    exact List.forall_mem_append.mpr ⟨hsteps outer, by simp [Clause.phase]⟩

/-- Where there is a first match, no loop over edges stands outside of it. -/
theorem binds_of_firstMatch {joined : Bool} (h : q.matching topology joined = .ok clauses)
    {steps : List Step} {columns : List Expr} (hmatch : .firstMatch steps columns ∈ clauses)
    (n : Nat) : ∀ c ∈ clauses, .step n ∉ c.binds := by
  obtain ⟨outer, houter, h⟩ := bind_eq_ok.mp h
  cases joined with
  | false =>
    obtain rfl := pure_eq_ok.mp h
    simp at hmatch
  | true =>
    obtain ⟨inner, -, h⟩ := bind_eq_ok.mp h
    obtain rfl := pure_eq_ok.mp h
    intro c hc hbinds
    rw [List.mem_append] at hc
    rcases hc with hc | hc
    · obtain ⟨s, hs, rfl⟩ := List.mem_map.mp hc
      obtain ⟨hafter, hbefore⟩ := Step.binds_of_leads (leads_outer houter) hs hbinds
      exact hbefore hafter
    · obtain rfl := List.mem_singleton.mp hc
      simp [Clause.binds] at hbinds

/-- With a first match, what loops over edges bind is not read after matching. -/
theorem separated_of_leads {joined : Bool} {visible : List Var} {rest : List Clause}
    (h : q.matching topology joined = .ok clauses) (hrest : ∀ c ∈ rest, c.phase ≠ 0)
    (hleads : Leads Clause.Scoped Clause.after [.doc] (clauses ++ rest) visible)
    {steps : List Step} {columns : List Expr} (hmatch : .firstMatch steps columns ∈ clauses ++ rest)
    (n : Nat) : (∀ c ∈ clauses ++ rest, .step n ∉ c.reads) ∧ .step n ∉ visible := by
  have hmatch' : .firstMatch steps columns ∈ clauses :=
    (List.mem_append.mp hmatch).resolve_right fun hmem => hrest _ hmem rfl
  have hbinds : ∀ c ∈ rest, .step n ∉ c.binds := by
    intro c hc hmem
    cases c with
    | step s => exact hrest _ hc rfl
    | _ => simp [Clause.binds] at hmem
  exact Clause.not_reads_of_leads hleads (by simp)
    (List.forall_mem_append.mpr ⟨binds_of_firstMatch h hmatch' n, hbinds⟩)

end Query

/-- After the groups of a statement nothing is bound. -/
theorem binds_after_collect {o : Outline} {columns : List Expr} {first pages : List Clause}
    (hfirst : ∀ c ∈ first, c.phase ≠ 2) (hpages : ∀ c ∈ pages, c.phase = 3)
    {before rest : List Clause} {groups : List Expr} {totals : List (Function × Expr)}
    (h : first ++ o.collect columns ++ pages = before ++ .collect groups totals :: rest) :
    ∀ c ∈ rest, c.binds = [] := by
  have hbinds : ∀ c ∈ pages, c.binds = [] := by
    intro c hc
    have hphase := hpages c hc
    cases c with
    | sort keys => rfl
    | limit offset count => rfl
    | _ => cases hphase
  have hcollect : (o.collect columns).Pairwise fun c c' => c.phase = 2 → c'.binds = [] := by
    unfold Outline.collect
    split
    · exact .nil
    · exact List.pairwise_singleton _ _
  -- groups are made once at most, so what stands behind them is paging
  have hpairs : (first ++ o.collect columns ++ pages).Pairwise
      fun c c' => c.phase = 2 → c'.binds = [] := by
    refine List.pairwise_append.mpr ⟨List.pairwise_append.mpr ⟨?_, hcollect, ?_⟩, ?_, ?_⟩
    · exact List.pairwise_of_forall_mem_list fun c hc _ _ hphase => absurd hphase (hfirst c hc)
    · exact fun c hc _ _ hphase => absurd hphase (hfirst c hc)
    · exact List.pairwise_of_forall_mem_list fun _ _ c hc _ => hbinds c hc
    · exact fun _ _ c hc _ => hbinds c hc
  rw [h] at hpairs
  intro c hc
  exact (List.pairwise_cons.mp (List.pairwise_append.mp hpairs).2.1).1 c hc rfl

section

variable {m : Mapper} {d : Draft} {topology : Topology} {joined : Bool} {o : Outline}
  {matching inclusions pages : List Clause}
  (hmatching : d.query.matching topology joined = .ok matching)
  (hinclusions : inclusionClauses topology d.query.entity 0 d.query.inclusions = .ok inclusions)
  (hpages : paging (o.sortKey (d.query.columnsOf joined)) [] d.query.stages = .ok pages)
include hmatching hinclusions hpages

/-- The clauses of a statement are in order, and so is the result after them. -/
theorem Draft.Built.leads_clauses (hd : Draft.Built m d) (ho : Outline.ofQuery d.query = .ok o) :
    ∃ visible, Leads Clause.Scoped Clause.after [.doc]
        (matching ++ inclusions ++ o.collect (d.query.columnsOf joined) ++ pages) visible ∧
      ∀ v ∈ (o.result d.query (d.query.columnsOf joined)).reads, v ∈ visible := by
  have hwithin := Outline.ofQuery_within ho
  -- the variables that are visible after matching, and then with the inclusions
  let matched := afterMatching joined d.visible
  let visible := matched ++ (List.range' 0 d.query.inclusions.length).map Var.included
  have hdoc : .doc ∈ matched := by
    cases joined <;> simp [matched, afterMatching, Draft.visible]
  have hmatched : Leads Clause.Scoped Clause.after [.doc] matching matched :=
    Query.leads_matching hd.leads hmatching
  have hincluded : Leads Clause.Scoped Clause.after matched inclusions visible := by
    refine leads_inclusions hinclusions hdoc ?_ ?_
    · intro n hn
      simpa using Draft.mem_afterMatching hn
    · intro n hn
      simpa using Draft.mem_afterMatching hn
  have hcolumns : ∀ f ∈ d.query.stages.flatMap Stage.laterFields,
      (columnOr (d.query.columnsOf joined) f).var ∈ visible :=
    fun f hf => List.mem_append_left _ (Query.columnOr_visible hd.leads hf)
  have hfresh : ∀ v ∈ o.collected, v ∉ visible := by
    intro v hv hmem
    rw [List.mem_append] at hmem
    rcases hmem with hmem | hmem
    · have hkind := Draft.mem_afterMatching hmem
      rcases Outline.mem_collected hv with ⟨n, rfl⟩ | ⟨n, rfl⟩ <;> simp at hkind
    · rcases Outline.mem_collected hv with ⟨n, rfl⟩ | ⟨n, rfl⟩ <;> simp at hmem
  have hcollected := Outline.leads_collect hwithin hcolumns hfresh
  have hpaged := leads_pages
    (pages_of_paging hpages (fun f hf e he => Outline.sortKey_visible hcolumns hf he) (by simp))
  refine ⟨_, ((hmatched.append hincluded).append hcollected).append hpaged, ?_⟩
  refine Outline.result_visible hwithin (List.mem_append_left _ hdoc) hcolumns ?_
  intro n hn
  refine List.mem_append_right _ (List.mem_map_of_mem ?_)
  simpa [List.mem_range'] using hn

/-- Clauses whose variables are in order belong to a loop that is. -/
theorem Query.scopedLoop {visible : List Var} {result : Result}
    (hleads : Leads Clause.Scoped Clause.after [.doc]
      (matching ++ inclusions ++ o.collect (d.query.columnsOf joined) ++ pages) visible)
    (hresult : ∀ v ∈ result.reads, v ∈ visible) :
    ScopedLoop (matching ++ inclusions ++ o.collect (d.query.columnsOf joined) ++ pages)
      result := by
  have hmatchingPhase := Query.phase_matching hmatching
  have hinclusionPhase := phase_inclusions hinclusions
  have hpagePhase := phase_paging hpages
  refine ⟨⟨visible, hleads, hresult⟩, ?_, ?_⟩
  · intro steps columns hmatch n
    have hrest : ∀ c ∈ inclusions ++ (o.collect (d.query.columnsOf joined) ++ pages),
        c.phase ≠ 0 := by
      intro c hc
      rw [List.mem_append] at hc
      rcases hc with hc | hc
      · simp [hinclusionPhase c hc]
      · rw [List.mem_append] at hc
        rcases hc with hc | hc
        · simp [phase_collect c hc]
        · simp [hpagePhase c hc]
    simp only [List.append_assoc] at hleads hmatch ⊢
    obtain ⟨hclauses, hleft⟩ := Query.separated_of_leads hmatching hrest hleads hmatch n
    exact ⟨hclauses, fun hread => hleft (hresult _ hread)⟩
  · intro before groups totals rest heq
    have hfirst : ∀ c ∈ matching ++ inclusions, c.phase ≠ 2 := by
      intro c hc
      rw [List.mem_append] at hc
      rcases hc with hc | hc
      · simp [hmatchingPhase c hc]
      · simp [hinclusionPhase c hc]
    have hbinds := binds_after_collect hfirst hpagePhase heq
    obtain ⟨hclauses, hleft⟩ := Clause.reads_of_leads_collect (heq ▸ hleads) hbinds
    exact ⟨hclauses, fun v hread => hleft v (hresult v hread)⟩

end

/-- The statement of a query is a loop whose variables are all in scope, whatever mapper has made the
query and whatever mapper makes the statement. Its text has no other variables, and each of them is
visible in its clause, bound by it or local to it. -/
theorem Mapper.statement_scoped {m m' : Mapper} {entity : String} {ops : List Operation} {q : Query}
    {st : Statement} (hq : m.query entity ops = .ok q) (hst : m'.statement q = .ok st) :
    ∃ clauses result, st.command = .read q.collection clauses result ∧
      ScopedLoop clauses result ∧
      varsOf st.command.lexemes = .doc :: clauses.flatMap Clause.mentions ++ result.reads ∧
      ∀ before c rest, clauses = before ++ c :: rest → ∀ v ∈ c.mentions,
        v ∈ before.foldl Clause.after [.doc] ∨ v ∈ c.binds ∨ v ∈ c.locals := by
  obtain ⟨d, hd, -, rfl⟩ := query_built hq
  obtain ⟨joined, o, matching, inclusions, pages, -, ho, hmatching, hinclusions, hpages, hcommand⟩ :=
    statement_eq_ok hst
  obtain ⟨visible, hleads, hresult⟩ := hd.leads_clauses hmatching hinclusions hpages ho
  refine ⟨_, _, hcommand, Query.scopedLoop hmatching hinclusions hpages hleads hresult, ?_, ?_⟩
  · rw [hcommand, Command.varsOf_read]
  · intro before c rest heq v hv
    exact (heq ▸ hleads).foldl_after.mentions v hv

/-- The accounts of persons above a balance, counted by age, in both forms. -/
theorem Mapper.statement_scoped_balances :
    let ops := [.filter (.compare "accounts.balance" .greaterThan (.parameter "least")),
      .aggregate "count" "accounts.balance" ["age"], .order ["age"] .ascending, .limit 10 0]
    ∃ q flat distinct, Bank.mapper.query "Person" ops = .ok q ∧
      ({ Bank.mapper with settings := ⟨8, false⟩ } : Mapper).statement q = .ok flat ∧
      Bank.mapper.statement q = .ok distinct ∧
      ∀ st ∈ [flat, distinct], ∃ clauses result, st.command = .read q.collection clauses result ∧
        ScopedLoop clauses result ∧
        varsOf st.command.lexemes = .doc :: clauses.flatMap Clause.mentions ++ result.reads ∧
        ∀ before c rest, clauses = before ++ c :: rest → ∀ v ∈ c.mentions,
          v ∈ before.foldl Clause.after [.doc] ∨ v ∈ c.binds ∨ v ∈ c.locals := by
  intro ops
  have hmade : (match Bank.mapper.query "Person" ops with
      | .ok q => (({ Bank.mapper with settings := ⟨8, false⟩ } : Mapper).statement q).isOk &&
        (Bank.mapper.statement q).isOk
      | .error _ => false) = true := by decide +kernel
  cases hq : Bank.mapper.query "Person" ops with
  | error _ => simp [hq] at hmade
  | ok q =>
    rw [hq] at hmade
    obtain ⟨hflat, hdistinct⟩ := Bool.and_eq_true_iff.mp hmade
    obtain ⟨flat, hflat⟩ := exists_of_isOk hflat
    obtain ⟨distinct, hdistinct⟩ := exists_of_isOk hdistinct
    refine ⟨q, flat, distinct, rfl, hflat, hdistinct, ?_⟩
    intro st hst
    rw [List.mem_pair] at hst
    rcases hst with rfl | rfl
    · exact statement_scoped hq hflat
    · exact statement_scoped hq hdistinct

end GraphMapper
