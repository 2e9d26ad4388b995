import GraphMapper.Proofs.Mapper
import GraphMapper.Proofs.Query.Plain

/-!
# The distinct and the flattened form

Flattened, a root document gives a row for each combination of related documents that passes the
filters; distinct, it gives one. `distinct_rows` says that the row it gives then is the first of
those that it gives flattened, for queries that neither sort nor cut nor aggregate.

The distinct form moves the filters on the root in front of the loops. That is possible because
their outcome depends on the root document alone (`nested_rootFilters`), which no stage changes. What
is left is to compare one row of the nested loops with the columns that the first match has kept of
it (`eval_columnOr`).
-/

namespace GraphMapper

open Outcome Aql

variable {V : Type}

/-! ## Filters on the root document -/

namespace Predicate

variable {db : Database V} {b b' : Bindings V} {operand : Operand → V}

theorem eval_root {f : FieldPath} (hf : f.scope = .root) (h : b.value .doc = b'.value .doc) :
    b.eval db f.expr = b'.eval db f.expr := by
  simp [FieldPath.expr, Bindings.eval, hf, Scope.var, h]

/-- A predicate on the root alone depends on the root document alone. -/
theorem judged_rootOnly (h : b.value .doc = b'.value .doc) {p : Predicate}
    (hroot : p.rootOnly = true) :
    p.judged (b.eval db) operand = p.judged (b'.eval db) operand :=
  judged_congr p fun f hf => eval_root (scope_of_rootOnly p hroot f hf) h

end Predicate

namespace Stage

variable {db : Database V} {topology : Topology} {operand : Operand → V}

/-- The rows of a stage have the root of the row that they come from. -/
theorem rows_sameRoot {s : Stage} {b b' : Bindings V} (h : b' ∈ s.rows db topology operand b) :
    Bindings.SameRoot b' b := by
  cases s with
  | filter p =>
    rw [rows] at h
    split at h
    · obtain rfl := List.mem_singleton.mp h
      exact .refl b'
    · cases h
  | traverse t =>
    rw [rows] at h
    split at h
    · obtain ⟨vertex, -, rfl⟩ := List.mem_map.mp h
      exact ⟨by simp, fun n => by simp⟩
    · cases h
  | _ =>
    obtain rfl := List.mem_singleton.mp h
    exact .refl b'

theorem nested_sameRoot {stages : List Stage} {b b' : Bindings V}
    (h : b' ∈ nested db topology operand stages b) : Bindings.SameRoot b' b := by
  induction stages generalizing b with
  | nil =>
    obtain rfl := List.mem_singleton.mp h
    exact .refl b'
  | cons s rest ih =>
    obtain ⟨c, hc, hb'⟩ := List.mem_flatMap.mp h
    exact (ih hb').trans (rows_sameRoot hc)

variable (db topology operand) in
/-- Filters on the root keep a row or drop it, as its root document decides. -/
theorem nested_rootFilters {stages : List Stage} (h : ∀ s ∈ stages, s.isRootFilter = true) :
    ∃ pass : V → Bool, ∀ b : Bindings V,
      nested db topology operand stages b = if pass (b.value .doc) then [b] else [] := by
  induction stages with
  | nil => exact ⟨fun _ => true, fun b => rfl⟩
  | cons s rest ih =>
    obtain ⟨pass, hpass⟩ := ih fun s' hs' => h s' (List.mem_cons_of_mem _ hs')
    cases s with
    | filter p =>
      have hroot : p.rootOnly = true := h _ List.mem_cons_self
      refine ⟨fun document => db.accepts (p.judged ((Bindings.root db document).eval db) operand) &&
        pass document, fun b => ?_⟩
      have hsame : p.judged (b.eval db) operand =
          p.judged ((Bindings.root db (b.value .doc)).eval db) operand :=
        Predicate.judged_rootOnly (Bindings.root_doc db (b.value .doc)).symm hroot
      rw [nested, rows, hsame]
      split
      · next haccepts => simp [hpass, haccepts]
      · next hrefused => simp [hrefused]
    | _ => exact absurd (h _ List.mem_cons_self) (by simp [isRootFilter])

/-- Filters on the root can be moved in front of the other stages. -/
theorem nested_split (stages : List Stage) (b : Bindings V) :
    nested db topology operand stages b =
      (nested db topology operand (stages.filter (·.isRootFilter)) b).flatMap
        (nested db topology operand (stages.filter (!·.isRootFilter))) := by
  induction stages generalizing b with
  | nil => simp [nested]
  | cons s rest ih =>
    cases hs : s.isRootFilter with
    | true =>
      have hroots : (s :: rest).filter (·.isRootFilter) = s :: rest.filter (·.isRootFilter) :=
        List.filter_cons_of_pos hs
      have hothers : (s :: rest).filter (!·.isRootFilter) = rest.filter (!·.isRootFilter) :=
        List.filter_cons_of_neg (by simp [hs])
      rw [hroots, hothers, nested, nested, List.flatMap_assoc]
      exact List.flatMap_congr fun b' _ => ih b'
    | false =>
      have hroots : (s :: rest).filter (·.isRootFilter) = rest.filter (·.isRootFilter) :=
        List.filter_cons_of_neg (by simp [hs])
      have hothers : (s :: rest).filter (!·.isRootFilter) =
          s :: rest.filter (!·.isRootFilter) := List.filter_cons_of_pos (by simp [hs])
      have hfilters : ∀ s' ∈ rest.filter (·.isRootFilter), s'.isRootFilter = true :=
        fun s' hs' => (List.mem_filter.mp hs').2
      obtain ⟨pass, hpass⟩ := nested_rootFilters db topology operand hfilters
      -- the stage leaves the root document alone, so the filters decide alike before and after it
      have hrows : ∀ b' ∈ s.rows db topology operand b, nested db topology operand rest b' =
          if pass (b.value .doc) then
            nested db topology operand (rest.filter (!·.isRootFilter)) b' else [] := by
        intro b' hb'
        rw [ih, hpass, (rows_sameRoot hb').doc]
        split <;> simp
      rw [hroots, hothers, nested, List.flatMap_congr hrows, hpass]
      split
      · rw [List.flatMap_singleton]
        rfl
      · simp

end Stage

/-! ## Columns and results -/

section

variable {db : Database V} {found hit : Bindings V} {columns : List Expr}

/-- After the first match a field has the value that it had in the row that was found. -/
theorem eval_columnOr (hcolumns : hit.columns = columns.map (found.eval db))
    (hdoc : hit.value .doc = found.value .doc) {f : FieldPath}
    (hf : f.scope ≠ .root → f.expr ∈ columns) :
    hit.eval db (columnOr columns f) = found.eval db f.expr := by
  rcases columnOr_cases columns f with ⟨n, hget, heq⟩ | ⟨hnone, heq⟩
  · rw [heq, Bindings.eval, hcolumns, List.getElem?_map, hget]
    rfl
  · rw [heq]
    refine Predicate.eval_root ?_ hdoc
    by_contra hscope
    exact hnone (hf hscope)

theorem eval_including (f : FieldPath) (clauses : List Clause) :
    (found.including db clauses).eval db f.expr = found.eval db f.expr := by
  have hvar : ∀ n, f.scope.var ≠ .included n := by
    cases f.scope <;> simp [Scope.var]
  simp only [FieldPath.expr, Bindings.eval, Bindings.including_value hvar]

/-- The result of a row of loops is that of its columns. -/
theorem result_including {o : Outline} {q : Query} (htotals : o.totals = [])
    (hfields : ∀ f ∈ o.projection, f.scope ≠ .root → f.expr ∈ columns)
    (hcolumns : hit.columns = columns.map (found.eval db)) (hroot : Bindings.SameRoot hit found)
    (clauses : List Clause) :
    (o.result q columns).value db (hit.including db clauses) =
      (o.result q []).value db (found.including db clauses) := by
  have hsame := hroot.including db clauses
  have hincluded : q.includedEntries.map (fun e => (e.1, (hit.including db clauses).eval db e.2)) =
      q.includedEntries.map fun e => (e.1, (found.including db clauses).eval db e.2) := by
    apply List.map_congr_left
    intro e he
    obtain ⟨n, _, rfl⟩ := List.mem_mapIdx.mp he
    simp [Bindings.eval, hsame.included]
  have hprojected : ∀ f ∈ o.projection,
      (hit.including db clauses).eval db (columnOr columns f) =
        (found.including db clauses).eval db (columnOr [] f) := by
    intro f hf
    have hkept : (hit.including db clauses).columns = columns.map (found.eval db) := by
      rw [Bindings.including_columns, hcolumns]
    have hdoc : (hit.including db clauses).value .doc = found.value .doc :=
      (Bindings.including_value (by simp) clauses).trans hroot.doc
    rw [eval_columnOr hkept hdoc (hfields f hf)]
    exact (eval_including f clauses).symm
  unfold Outline.result
  simp only [htotals, List.isEmpty_nil, Bool.not_true, Bool.false_eq_true, if_false]
  split
  · simp only [Result.value, List.map_append, List.map_map, hincluded]
    refine congrArg db.object (congrArg (· ++ _) (List.map_congr_left fun f hf => ?_))
    exact congrArg (Prod.mk f.path) (hprojected f hf)
  · split
    · simp only [Result.value, hincluded, hsame.doc]
    · exact hsame.doc

end

/-! ## The two forms -/

/-- The mapper with another choice of the form. -/
def Mapper.withDistinct (m : Mapper) (distinct : Bool) : Mapper :=
  { m with settings := { m.settings with distinctTraversals := distinct } }

namespace Query

variable {q : Query} {topology : Topology} {clauses : List Clause}

theorem matching_ok (h : Stage.Hopped topology q.stages) (joined : Bool) :
    ∃ clauses, q.matching topology joined = .ok clauses := by
  have hsplit : ∀ s, s ∈ (q.split joined).1 ∨ s ∈ (q.split joined).2 → s ∈ q.stages := by
    intro s hs
    cases joined with
    | false => exact hs.resolve_right (by simp [split])
    | true => exact hs.elim (fun hs => (List.mem_filter.mp hs).1) fun hs => (List.mem_filter.mp hs).1
  obtain ⟨outer, houter⟩ := Stage.steps_of_hopped (h.mono fun s hs => hsplit s (Or.inl hs)) 0
  obtain ⟨inner, hinner⟩ := Stage.steps_of_hopped (h.mono fun s hs => hsplit s (Or.inr hs))
    ((q.split joined).1.flatMap Stage.literals).length
  cases joined with
  | false => exact ⟨_, bind_eq_ok.mpr ⟨outer, houter, rfl⟩⟩
  | true => exact ⟨_, bind_eq_ok.mpr ⟨outer, houter, bind_eq_ok.mpr ⟨inner, hinner, rfl⟩⟩⟩

variable {db : Database V} {given : String → V} {command : Command}
  (hnames : ∀ s ∈ q.stages, ∀ name ∈ s.parameters, isParameterName name = true)
include hnames

/-- Flattened, the rows are those of the nested loops. -/
theorem tables_flattened (h : q.matching topology false = .ok clauses) (rows : List (Bindings V)) :
    Clause.tables db
      ((Statement.closed command (literalValues (q.literals false))).slotValue db given)
      rows clauses =
    rows.flatMap (Stage.nested db topology (Operand.value db given) q.stages) := by
  obtain ⟨steps, hsteps, h⟩ := bind_eq_ok.mp h
  obtain rfl := pure_eq_ok.mp h
  have hliterals : q.literals false = q.stages.flatMap Stage.literals := by
    simp [literals, split]
  rw [Clause.tables_steps, hliterals]
  exact List.flatMap_congr fun b _ => Stage.stepRows_steps hsteps Statement.filled_literals
    (Statement.named_parameters hnames) b

/-- Distinct, a row is kept with the columns of the first of its nested rows. -/
theorem tables_joined (h : q.matching topology true = .ok clauses) (rows : List (Bindings V)) :
    Clause.tables db
      ((Statement.closed command (literalValues (q.literals true))).slotValue db given)
      rows clauses =
    rows.filterMap fun b =>
      (Stage.nested db topology (Operand.value db given) q.stages b).head?.map fun found =>
        { b with columns := q.columns.map (found.eval db) } := by
  obtain ⟨outer, houter, h⟩ := bind_eq_ok.mp h
  obtain ⟨inner, hinner, h⟩ := bind_eq_ok.mp h
  obtain rfl := pure_eq_ok.mp h
  let roots := q.stages.filter (·.isRootFilter)
  let others := q.stages.filter (!·.isRootFilter)
  have hroots : ∀ s ∈ roots, s ∈ q.stages := fun s hs => (List.mem_filter.mp hs).1
  have hothers : ∀ s ∈ others, s ∈ q.stages := fun s hs => (List.mem_filter.mp hs).1
  have hliterals : q.literals true =
      roots.flatMap Stage.literals ++ others.flatMap Stage.literals := by
    simp [literals, split, roots, others]
  -- the literals of the filters on the root come first, so those of the match are numbered after them
  let slots := (Statement.closed command (literalValues (q.literals true))).slotValue db given
  have hfilled : Filled slots (Operand.value db given) 0
      (roots.flatMap Stage.literals ++ others.flatMap Stage.literals) :=
    hliterals ▸ Statement.filled_literals
  obtain ⟨houterFilled, hinnerFilled⟩ := hfilled.append
  rw [Nat.zero_add] at hinnerFilled
  have houterRows : ∀ b, stepRows db slots outer b =
      Stage.nested db topology (Operand.value db given) roots b :=
    Stage.stepRows_steps houter houterFilled
      (Statement.named_parameters fun s hs => hnames s (hroots s hs))
  have hinnerRows : ∀ b, stepRows db slots inner b =
      Stage.nested db topology (Operand.value db given) others b :=
    Stage.stepRows_steps hinner hinnerFilled
      (Statement.named_parameters fun s hs => hnames s (hothers s hs))
  have hfilters : ∀ s ∈ roots, s.isRootFilter = true := fun s hs => (List.mem_filter.mp hs).2
  obtain ⟨pass, hpass⟩ :=
    Stage.nested_rootFilters db topology (Operand.value db given) hfilters
  rw [Clause.tables_append, Clause.tables_steps, Clause.tables_cons, Clause.tables_nil,
    Clause.table, List.filterMap_flatMap, List.filterMap_eq_flatMap_toList]
  apply List.flatMap_congr
  intro b _
  rw [houterRows, Stage.nested_split q.stages, hpass]
  cases pass (b.value .doc) with
  | false => simp
  | true =>
    rw [if_pos rfl, List.flatMap_singleton, List.filterMap_eq_flatMap_toList,
      List.flatMap_singleton]
    exact congrArg (fun found => (Option.map _ (List.head? found)).toList) (hinnerRows b)

variable {inclusions : List Clause} (hall : ∀ c ∈ inclusions, c.Includes) {collection : String}
  (result : Result) (roots : List V)
include hall

theorem rowsOf_flattened (h : q.matching topology false = .ok clauses) :
    (Statement.closed (.read collection (clauses ++ inclusions) result)
      (literalValues (q.literals false))).rowsOf db given roots =
    roots.flatMap fun root =>
      (Stage.nested db topology (Operand.value db given) q.stages (.root db root)).map fun b =>
        result.value db (b.including db inclusions) := by
  rw [Statement.rowsOf]
  dsimp only [Statement.closed, Command.rowsOf]
  rw [Clause.tables_append, Bindings.tables_inclusions hall]
  rw [← Statement.closed, tables_flattened hnames h]
  simp only [List.map_flatMap, List.flatMap_map, List.map_map]
  rfl

theorem rowsOf_joined (h : q.matching topology true = .ok clauses) :
    (Statement.closed (.read collection (clauses ++ inclusions) result)
      (literalValues (q.literals true))).rowsOf db given roots =
    roots.filterMap fun root =>
      (Stage.nested db topology (Operand.value db given) q.stages (.root db root)).head?.map
        fun found => result.value db
          (Bindings.including db { Bindings.root db root with
            columns := q.columns.map (found.eval db) } inclusions) := by
  rw [Statement.rowsOf]
  dsimp only [Statement.closed, Command.rowsOf]
  rw [Clause.tables_append, Bindings.tables_inclusions hall]
  rw [← Statement.closed, tables_joined hnames h]
  simp only [List.map_filterMap, List.filterMap_map, Function.comp_def, Option.map_map]

end Query

/-- A list of one member at most is its head. -/
theorem toList_head? {α : Type} {l : List α} (h : l.length ≤ 1) : l.head?.toList = l := by
  rcases l with _ | ⟨a, _ | ⟨b, rest⟩⟩
  · rfl
  · rfl
  · simp at h

/-- Without traversals a root document gives one row at most. -/
theorem Stage.nested_length_le_one {db : Database V} {topology : Topology} {operand : Operand → V}
    {stages : List Stage} (h : ∀ s ∈ stages, s.traversal? = none) (b : Bindings V) :
    (nested db topology operand stages b).length ≤ 1 := by
  induction stages generalizing b with
  | nil => simp [nested]
  | cons s rest ih =>
    have hrest := ih fun s' hs' => h s' (List.mem_cons_of_mem _ hs')
    cases s with
    | filter p =>
      rw [nested, rows]
      split
      · rw [List.flatMap_singleton]
        exact hrest b
      · simp
    | traverse t => exact absurd (h _ List.mem_cons_self) (by simp [traversal?])
    | _ =>
      simp only [nested, rows, List.flatMap_singleton]
      exact hrest b

/-- The rows of a plain query in the two forms, which have one outline and the same inclusions. -/
theorem Draft.Built.statement_rows {m : Mapper} {d : Draft} (hd : Draft.Built m d)
    (hplain : ∀ s ∈ d.query.stages, s.isPlain = true) :
    ∃ (o : Outline) (inclusions : List Clause), o.totals = [] ∧
      (∀ f ∈ o.projection, f ∈ d.query.stages.flatMap Stage.laterFields) ∧
      ∀ settings : Settings, ∃ st, ({ m with settings } : Mapper).statement d.query = .ok st ∧
        st.command.collection? = some d.query.collection ∧
        ∀ (V : Type) (db : Database V) (given : String → V) (roots : List V),
          st.rowsOf db given roots =
            if d.query.isJoined settings then
              roots.filterMap fun root =>
                (Stage.nested db m.topology (Operand.value db given) d.query.stages
                  (.root db root)).head?.map fun found =>
                    (o.result d.query d.query.columns).value db
                      (Bindings.including db { Bindings.root db root with
                        columns := d.query.columns.map (found.eval db) } inclusions)
            else
              roots.flatMap fun root =>
                (Stage.nested db m.topology (Operand.value db given) d.query.stages
                  (.root db root)).map fun b =>
                    (o.result d.query []).value db (b.including db inclusions) := by
  obtain ⟨o, inclusions, htotals, hfields, hall, hstatement⟩ :=
    Mapper.statement_plain hplain fun i hi => hd.inclusion hi
  refine ⟨o, inclusions, htotals, hfields, fun settings => ?_⟩
  obtain ⟨matching, hmatching⟩ :=
    Query.matching_ok (q := d.query) hd.hopped (d.query.isJoined settings)
  refine ⟨_, hstatement settings matching hmatching, rfl, fun V db given roots => ?_⟩
  cases hjoined : d.query.isJoined settings with
  | true =>
    rw [hjoined] at hmatching
    exact Query.rowsOf_joined hd.parameters hall _ roots hmatching
  | false =>
    rw [hjoined] at hmatching
    exact Query.rowsOf_flattened hd.parameters hall _ roots hmatching

namespace Mapper

variable {m : Mapper} {d : Draft}

/-- Flattened, a plain query returns the results of the nested loops; distinct, that of the first row
that a root document has there. -/
theorem rowsOf_forms (hd : Draft.Built m d) (hplain : ∀ s ∈ d.query.stages, s.isPlain = true) :
    ∃ flat distinct, (m.withDistinct false).statement d.query = .ok flat ∧
      (m.withDistinct true).statement d.query = .ok distinct ∧
      flat.command.collection? = some d.query.collection ∧
      distinct.command.collection? = some d.query.collection ∧
      ∀ (V : Type) (db : Database V) (given : String → V), ∃ returned : V → List V,
        ∀ roots, flat.rowsOf db given roots = roots.flatMap returned ∧
          distinct.rowsOf db given roots = roots.filterMap fun root => (returned root).head? := by
  obtain ⟨o, inclusions, htotals, hfields, hstatement⟩ := hd.statement_rows hplain
  obtain ⟨flat, hflat, hcollection, hflatRows⟩ := hstatement (m.withDistinct false).settings
  obtain ⟨distinct, hdistinct, hcollection', hdistinctRows⟩ :=
    hstatement (m.withDistinct true).settings
  have hflatForm : d.query.isJoined (m.withDistinct false).settings = false := by
    simp [Query.isJoined, withDistinct]
  have hdistinctForm : d.query.isJoined (m.withDistinct true).settings = d.query.hasTraversal := by
    simp [Query.isJoined, withDistinct]
  refine ⟨flat, distinct, hflat, hdistinct, hcollection, hcollection', fun V db given =>
    ⟨_, fun roots => ⟨(hflatRows V db given roots).trans (by rw [hflatForm]; rfl), ?_⟩⟩⟩
  rw [hdistinctRows, hdistinctForm]
  cases htraversal : d.query.hasTraversal with
  | false =>
    -- without traversals both forms are one statement, and a root document gives one row at most
    have hnone : ∀ s ∈ d.query.stages, s.traversal? = none := by
      simpa [Query.hasTraversal, Query.traversals] using htraversal
    rw [if_neg Bool.false_ne_true, List.filterMap_eq_flatMap_toList]
    apply List.flatMap_congr
    intro root _
    refine (toList_head? ?_).symm
    rw [List.length_map]
    exact Stage.nested_length_le_one hnone _
  | true =>
    rw [if_pos rfl]
    apply List.filterMap_congr
    intro root _
    rw [List.head?_map]
    apply Option.map_congr
    intro found hfound
    have hroot := Stage.nested_sameRoot (List.mem_of_head? hfound)
    let hit : Bindings V :=
      { Bindings.root db root with columns := d.query.columns.map (found.eval db) }
    have hsame : hit.SameRoot found := ⟨hroot.doc.symm, fun n => (hroot.included n).symm⟩
    have hcolumns : hit.columns = d.query.columns.map (found.eval db) := rfl
    exact result_including htotals
      (fun f hf hscope => Query.mem_columns.mpr ⟨f, hfields f hf, hscope, rfl⟩) hcolumns hsame
      inclusions

/-- The distinct form of a query returns, for each root document in order that gives a row flattened,
the first of these rows, and nothing else. -/
theorem distinct_rows {entity : String} {ops : List Operation} {q : Query}
    (hq : m.query entity ops = .ok q) (hplain : ∀ s ∈ q.stages, s.isPlain = true) :
    ∃ flat distinct, (m.withDistinct false).statement q = .ok flat ∧
      (m.withDistinct true).statement q = .ok distinct ∧
      ∀ (V : Type) (db : Database V) (given : String → V),
        flat.rows db given =
          (db.documents q.collection).flatMap (fun root => flat.rowsOf db given [root]) ∧
        distinct.rows db given =
          (db.documents q.collection).filterMap fun root => (flat.rowsOf db given [root]).head? := by
  obtain ⟨d, hd, -, rfl⟩ := query_built hq
  obtain ⟨flat, distinct, hflat, hdistinct, hroots, hroots', hforms⟩ := rowsOf_forms hd hplain
  refine ⟨flat, distinct, hflat, hdistinct, ?_⟩
  intro V db given
  obtain ⟨returned, hreturned⟩ := hforms V db given
  have hsingle : ∀ root, flat.rowsOf db given [root] = returned root := by
    intro root
    rw [(hreturned [root]).1, List.flatMap_singleton]
  constructor
  · rw [Statement.rows, hroots]
    exact (hreturned _).1.trans (List.flatMap_congr fun root _ => (hsingle root).symm)
  · rw [Statement.rows, hroots']
    rw [(hreturned _).2]
    apply List.filterMap_congr
    intro root _
    rw [hsingle]

/-- Persons with an account above a balance, given with that balance. -/
theorem distinct_rows_balances :
    let ops := [.filter (.compare "accounts.balance" .greaterThan (.parameter "least")),
      .project ["age", "accounts.balance"]]
    ∃ q, Bank.mapper.query "Person" ops = .ok q ∧ (∀ s ∈ q.stages, s.isPlain = true) ∧
      ∃ flat distinct, (Bank.mapper.withDistinct false).statement q = .ok flat ∧
        (Bank.mapper.withDistinct true).statement q = .ok distinct ∧
        ∀ (V : Type) (db : Database V) (given : String → V),
          flat.rows db given =
            (db.documents q.collection).flatMap (fun root => flat.rowsOf db given [root]) ∧
          distinct.rows db given =
            (db.documents q.collection).filterMap fun root =>
              (flat.rowsOf db given [root]).head? := by
  intro ops
  have hplain : (match Bank.mapper.query "Person" ops with
      | .ok q => q.stages.all Stage.isPlain
      | .error _ => false) = true := by decide +kernel
  cases hq : Bank.mapper.query "Person" ops with
  | error _ => simp [hq] at hplain
  | ok q =>
    rw [hq] at hplain
    exact ⟨q, rfl, List.all_eq_true.mp hplain, distinct_rows hq (List.all_eq_true.mp hplain)⟩

end Mapper

end GraphMapper
