import GraphMapper.Proofs.Outcome
import GraphMapper.Query.Statement

/-!
# The parts of a statement

The statement of a query is taken apart into the clauses of its matching, its inclusions, its groups
and its paging (`Mapper.statement_eq_ok`). Its outline has no fields but those that the stages read
after the traversals and filters (`Outline.ofQuery_within`), and of these every one of a related
document is a column of the first match (`Query.mem_columns`).
-/

namespace GraphMapper

open Outcome Aql

/-! ## Fields of the outline -/

/-- The fields that a stage projects. -/
def Stage.projected : Stage → List FieldPath
  | project fields => fields
  | _ => []

namespace Outline

/-- The fields of the outline are among these. -/
structure Within (o : Outline) (fields : List FieldPath) : Prop where
  projection : ∀ f ∈ o.projection, f ∈ fields
  totals : ∀ t ∈ o.totals, t.1.field ∈ fields ∧ ∀ g ∈ t.1.groupBy, g ∈ fields

variable {o o' : Outline} {fields : List FieldPath}

theorem mem_addFields {f : FieldPath} {fs : List FieldPath} (h : f ∈ addFields fields fs) :
    f ∈ fields ∨ f ∈ fs := by
  induction fs generalizing fields with
  | nil => exact Or.inl h
  | cons g rest ih =>
    rcases ih h with hf | hf
    · split at hf
      · exact Or.inl hf
      · rw [List.mem_append] at hf
        rcases hf with hf | hf
        · exact Or.inl hf
        · exact Or.inr (List.mem_cons.mpr (Or.inl (List.mem_singleton.mp hf)))
    · exact Or.inr (List.mem_cons_of_mem _ hf)

theorem Within.groups (h : o.Within fields) : ∀ g ∈ o.groups, g ∈ fields := by
  intro g hg
  unfold Outline.groups at hg
  split at hg
  · cases hg
  · next first function rest htotals =>
    exact (h.totals (first, function) (htotals ▸ List.mem_cons_self)).2 g hg

/-- The outline of a query is what its stages add. -/
theorem addStages_of_ofQuery {q : Query} (h : ofQuery q = .ok o) :
    q.stages.foldlM addStage {} = .ok o := by
  obtain ⟨o', hstages, h⟩ := bind_eq_ok.mp h
  have hsame : o' = o := by
    dsimp only at h
    split at h
    · obtain ⟨-, h⟩ := guard_eq_ok.mp h
      obtain ⟨-, h⟩ := guard_eq_ok.mp h
      exact pure_eq_ok.mp h
    · exact pure_eq_ok.mp h
  exact hsame ▸ hstages

/-- A limit that is accepted leaves the outline alone. -/
theorem addStage_limit {count offset : Int64} (h : addStage o (.limit count offset) = .ok o') :
    o' = o := by
  rw [addStage] at h
  split at h
  · cases h
  · exact (Except.ok.inj h).symm

/-- An aggregation that is accepted adds a total with the function that it names. -/
theorem addStage_aggregate {a : Aggregation} (h : addStage o (.aggregate a) = .ok o') :
    ∃ function, Function.ofName a.function = .ok function ∧
      o' = { o with totals := o.totals ++ [(a, function)] } := by
  obtain ⟨function, hfunction, h⟩ := bind_eq_ok.mp h
  refine ⟨function, hfunction, ?_⟩
  dsimp only at h
  split at h
  · obtain ⟨-, h⟩ := guard_eq_ok.mp h
    exact (pure_eq_ok.mp h).symm
  · exact (pure_eq_ok.mp h).symm

theorem addStage_within {s : Stage} (ho : o.Within fields)
    (hs : ∀ f ∈ s.laterFields, f ∈ fields) (h : addStage o s = .ok o') : o'.Within fields := by
  cases s with
  | filter p => exact Except.ok.inj h ▸ ho
  | traverse t => exact Except.ok.inj h ▸ ho
  | order fs direction => exact Except.ok.inj h ▸ ho
  | «include» i =>
    obtain rfl := Except.ok.inj h
    exact ⟨ho.projection, ho.totals⟩
  | limit count offset => exact addStage_limit h ▸ ho
  | project fs =>
    obtain rfl := Except.ok.inj h
    exact ⟨fun f hf => (mem_addFields hf).elim (ho.projection f) (hs f), ho.totals⟩
  | aggregate a =>
    obtain ⟨function, -, rfl⟩ := addStage_aggregate h
    refine ⟨ho.projection, ?_⟩
    intro t ht
    rw [List.mem_append] at ht
    rcases ht with ht | ht
    · exact ho.totals t ht
    · obtain rfl := List.mem_singleton.mp ht
      exact ⟨hs _ (by simp [Stage.laterFields]), fun g hg => hs g (by simp [Stage.laterFields, hg])⟩

/-- The outline of a query has no fields but those of its stages. -/
theorem ofQuery_within {q : Query} (h : ofQuery q = .ok o) :
    o.Within (q.stages.flatMap Stage.laterFields) := by
  refine foldlM_preserves (P := fun o => o.Within (q.stages.flatMap Stage.laterFields))
    (fun o s o' hs ho hstep => ?_) ⟨by simp, by simp⟩ (addStages_of_ofQuery h)
  exact addStage_within ho (fun f hf => List.mem_flatMap.mpr ⟨s, hs, hf⟩) hstep

/-! ## Projected fields -/

theorem addFields_append (fields fs gs : List FieldPath) :
    addFields fields (fs ++ gs) = addFields (addFields fields fs) gs := by
  induction fs generalizing fields with
  | nil => rfl
  | cons f rest ih => exact ih _

theorem addStage_projection {s : Stage} (h : addStage o s = .ok o') :
    o'.projection = addFields o.projection s.projected := by
  cases s with
  | limit count offset => exact addStage_limit h ▸ rfl
  | aggregate a =>
    obtain ⟨function, -, rfl⟩ := addStage_aggregate h
    rfl
  | _ => exact Except.ok.inj h ▸ rfl

/-- The projected fields of a query are those of its stages, each path once. -/
theorem projection_ofQuery {q : Query} (h : ofQuery q = .ok o) :
    o.projection = addFields [] (q.stages.flatMap Stage.projected) := by
  have hrun : ∀ {stages : List Stage} {o o' : Outline}, stages.foldlM addStage o = .ok o' →
      o'.projection = addFields o.projection (stages.flatMap Stage.projected) := by
    intro stages
    induction stages with
    | nil => exact fun h => pure_eq_ok.mp h ▸ rfl
    | cons s rest ih =>
      intro o o' h
      rw [List.foldlM_cons] at h
      obtain ⟨o₁, hstep, hrest⟩ := bind_eq_ok.mp h
      rw [ih hrest, addStage_projection hstep, List.flatMap_cons, addFields_append]
  exact hrun (addStages_of_ofQuery h)

end Outline

/-! ## Columns -/

theorem mem_addExprs {e : Expr} {exprs es : List Expr} :
    e ∈ addExprs exprs es ↔ e ∈ exprs ∨ e ∈ es := by
  induction es generalizing exprs with
  | nil => simp [addExprs]
  | cons e' rest ih =>
    rw [addExprs, ih, List.mem_cons]
    split
    · next hmem =>
      constructor
      · exact Or.imp_right Or.inr
      · rintro (h | rfl | h)
        · exact Or.inl h
        · exact Or.inl (by simpa using hmem)
        · exact Or.inr h
    · rw [List.mem_append, List.mem_singleton, or_assoc]

/-- The columns are the later fields of related documents. -/
theorem Query.mem_columns {q : Query} {e : Expr} : e ∈ q.columns ↔
    ∃ f ∈ q.stages.flatMap Stage.laterFields, f.scope ≠ .root ∧ f.expr = e := by
  rw [columns, mem_addExprs, List.mem_map]
  simp only [List.not_mem_nil, false_or, List.mem_filter, bne_iff_ne, and_assoc]

/-- A field after the first match is a column, or what it was if no column is it. -/
theorem columnOr_cases (columns : List Expr) (f : FieldPath) :
    (∃ n, columns[n]? = some f.expr ∧ columnOr columns f = .column n) ∨
      f.expr ∉ columns ∧ columnOr columns f = f.expr := by
  unfold columnOr
  split
  · next n hn =>
    obtain ⟨hlt, hget, -⟩ := List.idxOf?_eq_some_iff.mp hn
    exact Or.inl ⟨n, by simpa [hlt] using hget, rfl⟩
  · next hnone => exact Or.inr ⟨List.idxOf?_eq_none_iff.mp hnone, rfl⟩

/-! ## Inclusions -/

/-- The clause of an inclusion whose number is not known. -/
def Aql.Clause.Includes (c : Clause) : Prop :=
  ∃ index cardinality edges, c = .neighbours index cardinality edges

theorem includes_of_inclusionClauses {topology : Topology} {entity : String} {is : List Inclusion}
    {index : Nat} {clauses : List Clause}
    (h : inclusionClauses topology entity index is = .ok clauses) : ∀ c ∈ clauses, c.Includes := by
  induction is generalizing index clauses with
  | nil =>
    obtain rfl := Except.ok.inj h
    simp
  | cons i rest ih =>
    obtain ⟨clause, hclause, h⟩ := bind_eq_ok.mp h
    obtain ⟨others, hothers, h⟩ := bind_eq_ok.mp h
    obtain rfl := pure_eq_ok.mp h
    obtain ⟨hop, -, hclause⟩ := bind_eq_ok.mp hclause
    obtain rfl := pure_eq_ok.mp hclause
    exact List.forall_mem_cons.mpr ⟨⟨_, _, _, rfl⟩, ih hothers⟩

/-! ## Sorting and paging -/

/-- The clause sorts by such expressions, or it cuts. -/
inductive Aql.Clause.Pages (P : Expr → Prop) : Clause → Prop
  | sort {keys : List (Expr × SortDirection)} : (∀ k ∈ keys, P k.1) → Pages P (.sort keys)
  | limit (offset count : Nat) : Pages P (.limit offset count)

theorem pages_of_sortClause {P : Expr → Prop} {keys : List (Expr × SortDirection)}
    (h : ∀ k ∈ keys, P k.1) : ∀ c ∈ sortClause keys, c.Pages P := by
  unfold sortClause
  split
  · simp
  · exact List.forall_mem_singleton.mpr (.sort h)

/-- Paging sorts by what the later fields of the stages are sorted by, and by what is pending. -/
theorem pages_of_paging {P : Expr → Prop} {sortKey : FieldPath → Except Error Expr}
    {pending : List (Expr × SortDirection)} {stages : List Stage} {pages : List Clause}
    (h : paging sortKey pending stages = .ok pages)
    (hkeys : ∀ f ∈ stages.flatMap Stage.laterFields, ∀ e, sortKey f = .ok e → P e)
    (hpending : ∀ k ∈ pending, P k.1) : ∀ c ∈ pages, c.Pages P := by
  induction stages generalizing pending pages with
  | nil =>
    obtain rfl := Except.ok.inj h
    exact pages_of_sortClause hpending
  | cons s rest ih =>
    rw [List.flatMap_cons, List.forall_mem_append] at hkeys
    obtain ⟨hfirst, hrest⟩ := hkeys
    cases s with
    | order fields direction =>
      obtain ⟨keys, hmade, h⟩ := bind_eq_ok.mp h
      -- the keys of the stage wait for the next limit together with those before it
      have hsorted : ∀ k ∈ keys, P k.1 := by
        intro k hk
        obtain ⟨f, hf, hkey⟩ := (mem_mapM_iff hmade).mp hk
        obtain ⟨e, he, hkey⟩ := bind_eq_ok.mp hkey
        obtain rfl := pure_eq_ok.mp hkey
        exact hfirst f hf e he
      exact ih h hrest (List.forall_mem_append.mpr ⟨hpending, hsorted⟩)
    | limit count offset =>
      obtain ⟨later, hlater, h⟩ := bind_eq_ok.mp h
      obtain rfl := pure_eq_ok.mp h
      exact List.forall_mem_append.mpr ⟨pages_of_sortClause hpending,
        List.forall_mem_cons.mpr ⟨.limit _ _, ih hlater hrest (by simp)⟩⟩
    | _ => exact ih h hrest hpending

/-! ## The statement -/

/-- The columns of the statement of a query in one of the two forms. -/
def Query.columnsOf (q : Query) (joined : Bool) : List Expr := if joined then q.columns else []

/-- What a statement that is made consists of. -/
theorem Mapper.statement_eq_ok {m : Mapper} {q : Query} {st : Statement}
    (h : m.statement q = .ok st) : ∃ joined o matching inclusions pages,
      joined = q.isJoined m.settings ∧ Outline.ofQuery q = .ok o ∧
      q.matching m.topology joined = .ok matching ∧
      inclusionClauses m.topology q.entity 0 q.inclusions = .ok inclusions ∧
      paging (o.sortKey (q.columnsOf joined)) [] q.stages = .ok pages ∧
      st.command = .read q.collection
        (matching ++ inclusions ++ o.collect (q.columnsOf joined) ++ pages)
        (o.result q (q.columnsOf joined)) := by
  obtain ⟨o, ho, h⟩ := bind_eq_ok.mp h
  obtain ⟨matching, hmatching, h⟩ := bind_eq_ok.mp h
  obtain ⟨inclusions, hinclusions, h⟩ := bind_eq_ok.mp h
  obtain ⟨pages, hpages, h⟩ := bind_eq_ok.mp h
  obtain rfl := pure_eq_ok.mp h
  exact ⟨_, o, matching, inclusions, pages, rfl, ho, hmatching, hinclusions, hpages, rfl⟩

/-- The literals of a statement have their values from the start, its parameters have none. -/
theorem Mapper.statement_binds {m : Mapper} {q : Query} {st : Statement}
    (h : m.statement q = .ok st) :
    st.bindVars = (Statement.closed st.command
        (literalValues (q.literals (q.isJoined m.settings)))).bindVars ∧
      st.unbound = q.parameters ∧ st.parameters = q.parameters := by
  obtain ⟨o, -, h⟩ := bind_eq_ok.mp h
  obtain ⟨matching, -, h⟩ := bind_eq_ok.mp h
  obtain ⟨inclusions, -, h⟩ := bind_eq_ok.mp h
  obtain ⟨pages, -, h⟩ := bind_eq_ok.mp h
  obtain rfl := pure_eq_ok.mp h
  exact ⟨rfl, rfl, rfl⟩

end GraphMapper
