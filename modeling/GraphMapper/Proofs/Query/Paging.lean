import GraphMapper.Proofs.Aql.Tokens
import GraphMapper.Proofs.Query.Keys
import GraphMapper.Proofs.Query.PageText
import Mathlib.Data.List.Chain

/-!
# Sorting and paging keep the caller's order

The keys to sort by wait until a limit or the end: `paging` goes through the stages with those that are
pending, and its clauses show the pending keys and then what the stages ask, in this order. None of the
clauses is empty, and of any two neighbours one is a limit (`turns_paging`).

What a field is sorted by depends on the statement: a group after an aggregation, a column of the first
match for a related field, and the field itself otherwise (`Query.sortText`). So the lines of a statement
that sort and cut, read from top to bottom, are the keys and limits of its query, and they stand behind
the filter on a first match and behind an aggregation (`Mapper.statement_pages`).
-/

namespace GraphMapper

open Outcome Aql

/-! ## Clauses that sort and cut -/

namespace Stage

/-- What a stage asks of sorting and paging, given what fields are sorted by. -/
def pages (shown : FieldPath → String) : Stage → List Page
  | order fields direction => fields.map fun f => .key (shown f) direction
  | limit count offset => [.cut offset.toInt count.toInt]
  | _ => []

end Stage

/-- The clause cuts. -/
def Aql.Clause.IsLimit : Clause → Prop
  | .limit _ _ => True
  | _ => False

/-- The clauses show these entries, each of them something, and never sort twice in a row. -/
structure Turns (pages : List Clause) (entries : List Page) : Prop where
  entries : pages.flatMap Clause.entries = entries
  filled : ∀ c ∈ pages, c.entries ≠ []
  apart : pages.IsChain fun c c' => c.IsLimit ∨ c'.IsLimit

/-- Keys make one clause, and none if there are none. -/
theorem turns_sortClause (keys : List (Expr × SortDirection)) :
    Turns (sortClause keys) (keys.map Page.ofKey) := by
  cases keys with
  | nil => exact ⟨rfl, List.forall_mem_nil _, .nil⟩
  | cons k rest =>
    refine ⟨List.append_nil _, ?_, .singleton _⟩
    exact List.forall_mem_singleton.mpr (List.cons_ne_nil _ _)

/-- A limit stands after the keys before it. -/
theorem Turns.cut {later : List Clause} {entries : List Page} (h : Turns later entries)
    (keys : List (Expr × SortDirection)) (offset count : Nat) :
    Turns (sortClause keys ++ .limit offset count :: later)
      (keys.map Page.ofKey ++ .cut offset count :: entries) := by
  have hsorted := turns_sortClause keys
  constructor
  case entries =>
    rw [List.flatMap_append, List.flatMap_cons, hsorted.entries, h.entries]
    rfl
  case filled =>
    refine List.forall_mem_append.mpr ⟨hsorted.filled, ?_⟩
    exact List.forall_mem_cons.mpr ⟨List.cons_ne_nil _ _, h.filled⟩
  case apart =>
    have hlimit : (Clause.limit offset count).IsLimit := trivial
    refine List.isChain_append.mpr ⟨hsorted.apart, ?_, ?_⟩
    · exact List.isChain_cons.mpr ⟨fun c _ => Or.inl hlimit, h.apart⟩
    · intro c _ c' hc'
      exact Option.some.inj hc' ▸ Or.inr hlimit

/-- Paging shows what is pending and then what the stages ask. A limit turns what is pending before it
into its own clauses and starts over; every other stage hands it on. -/
theorem turns_paging {sortKey : FieldPath → Except Error Expr} {shown : FieldPath → String}
    {pending : List (Expr × SortDirection)} {stages : List Stage} {pages : List Clause}
    (h : paging sortKey pending stages = .ok pages) (hsound : ∀ s ∈ stages, s.Sound)
    (hshown : ∀ f ∈ stages.flatMap Stage.laterFields, ∀ e, sortKey f = .ok e →
      textOf e.lexemes = shown f) :
    Turns pages (pending.map Page.ofKey ++ stages.flatMap (Stage.pages shown)) := by
  induction stages generalizing pending pages with
  | nil =>
    obtain rfl := Except.ok.inj h
    simpa using turns_sortClause pending
  | cons s rest ih =>
    rw [List.flatMap_cons, List.forall_mem_append] at hshown
    obtain ⟨hfirst, hrest⟩ := hshown
    obtain ⟨hs, hothers⟩ := List.forall_mem_cons.mp hsound
    cases s with
    | order fields direction =>
      obtain ⟨keys, hmade, h⟩ := bind_eq_ok.mp h
      have hkeys : keys.map Page.ofKey = (Stage.order fields direction).pages shown := by
        refine map_of_mapM (fun f hf k hk => ?_) hmade
        obtain ⟨e, he, hk⟩ := bind_eq_ok.mp hk
        obtain rfl := pure_eq_ok.mp hk
        exact congrArg (Page.key · direction) (hfirst f hf e he)
      have hturns := ih h hothers hrest
      rwa [List.map_append, List.append_assoc, hkeys] at hturns
    | limit count offset =>
      obtain ⟨later, hlater, h⟩ := bind_eq_ok.mp h
      obtain rfl := pure_eq_ok.mp h
      have hturns := (ih hlater hothers hrest).cut pending offset.toInt.toNat count.toInt.toNat
      rwa [Int.toNat_of_nonneg hs.2, Int.toNat_of_nonneg (Int.le_of_lt hs.1)] at hturns
    | _ => exact ih h hothers hrest

/-- Clauses that never sort twice in a row are lines that never sort twice in a row. -/
theorem Turns.isChain {pages : List Clause} {entries : List Page} (h : Turns pages entries) :
    (pages.map Page.line).IsChain fun line next =>
      Page.heading line = "LIMIT".toList ∨ Page.heading next = "LIMIT".toList := by
  have hlimit : ∀ c : Clause, c.IsLimit → Page.heading (Page.line c) = "LIMIT".toList := by
    intro c hc
    cases c with
    | limit offset count => exact Page.heading_limit offset count
    | _ => cases hc
  rw [List.isChain_map]
  exact h.apart.imp fun c c' => Or.imp (hlimit c) (hlimit c')

/-! ## What fields are sorted by -/

/-- What a field is sorted by as it is written: the group of its path after an aggregation, the column
of a related field after a first match, and otherwise the field itself. -/
def Query.sortText (q : Query) (joined : Bool) (f : FieldPath) : String :=
  match q.aggregations with
  | first :: _ => "g" ++ toString (first.groupPaths.idxOf f.path)
  | [] =>
    if joined && f.scope != .root then "hit.v" ++ toString (q.columns.idxOf f.expr)
    else textOf f.expr.lexemes

theorem textOf_group (n : Nat) : textOf (Expr.field (.group n) []).lexemes = "g" ++ toString n :=
  textOf_numbered .group n

theorem textOf_column (n : Nat) : textOf (Expr.column n).lexemes = "hit.v" ++ toString n := by
  simp [textOf, Expr.lexemes, columnLexemes, Var.lexemes, Lexeme.text, Head.text, Mark.text,
    String.join]

namespace Query

variable {q : Query} {o : Outline} {joined : Bool} {f : FieldPath} {e : Expr}

/-- The column of a related field is the one of its expression. -/
theorem textOf_columnOr (hf : f ∈ q.stages.flatMap Stage.laterFields)
    (hnone : q.aggregations = []) :
    textOf (columnOr (q.columnsOf joined) f).lexemes = q.sortText joined f := by
  rw [sortText, hnone]
  cases joined with
  | false => rfl
  | true =>
    have hmem : f.expr ∈ q.columns ↔ f.scope ≠ .root := by
      rw [mem_columns]
      constructor
      · rintro ⟨g, -, hscope, hexpr⟩
        have hvar : g.scope.var = f.scope.var := (Expr.field.inj hexpr).1
        rwa [← Scope.var_injective hvar]
      · exact fun hscope => ⟨f, hf, hscope, rfl⟩
    rw [columnsOf, if_pos rfl, columnOr]
    by_cases hscope : f.scope = .root
    · have hnot : f.expr ∉ q.columns := fun h => hmem.mp h hscope
      rw [List.idxOf?_eq_none_iff.mpr hnot]
      simp [hscope]
    · have hfound : q.columns.idxOf? f.expr = some (q.columns.idxOf f.expr) :=
        List.findIdx?_eq_some_iff_findIdx_eq.mpr
          ⟨List.idxOf_lt_length_of_mem (hmem.mpr hscope), rfl⟩
      simp only [hfound, textOf_column, Bool.true_and, bne_iff_ne, ne_eq, hscope, not_false_eq_true,
        if_true]

/-- The sort keys of a query are written as its fields are sorted by. -/
theorem textOf_sortKey (ho : Outline.ofQuery q = .ok o)
    (hf : f ∈ q.stages.flatMap Stage.laterFields)
    (h : o.sortKey (q.columnsOf joined) f = .ok e) : textOf e.lexemes = q.sortText joined f := by
  have haggregations := Outline.aggregations_ofQuery ho
  cases htotals : o.totals with
  | nil =>
    have hnone : q.aggregations = [] := by
      rw [← haggregations, Outline.aggregations_eq_nil_iff, htotals]
    rw [Outline.sortKey, htotals] at h
    obtain rfl := Except.ok.inj h
    exact textOf_columnOr hf hnone
  | cons first rest =>
    have hfirst : q.aggregations = first.1 :: rest.map (·.1) := by
      rw [← haggregations, Outline.aggregations, htotals, List.map_cons]
    have hgroups : o.groups = first.1.groupBy := by simp [Outline.groups, htotals]
    rw [Outline.sortKey, htotals, hgroups] at h
    rw [sortText, hfirst]
    dsimp only
    rw [Aggregation.groupPaths, List.idxOf, List.findIdx_map]
    cases hfound : first.1.groupBy.findIdx? fun g => g.path == f.path with
    | none => simp [hfound] at h
    | some n =>
      obtain rfl : Expr.field (.group n) [] = e := by simpa [hfound] using h
      obtain ⟨-, hindex⟩ := List.findIdx?_eq_some_iff_findIdx_eq.mp hfound
      rw [textOf_group]
      exact hindex ▸ rfl

end Query

/-! ## The lines of a statement -/

/-- The lines before sorting and paging, given the clauses that stand there. -/
def frontLines (collection : String) (clauses : List Clause) : List (List Char) :=
  (loop .doc [.name collection] :: clauses.flatMap Clause.lines).map charsOf

theorem frontLines_append (collection : String) (clauses others : List Clause) :
    frontLines collection (clauses ++ others) =
      frontLines collection clauses ++ (others.flatMap Clause.lines).map charsOf := by
  rw [frontLines, List.flatMap_append, ← List.cons_append, List.map_append]
  rfl

theorem frontLines_isPrefix_append (collection : String) (clauses others : List Clause) :
    frontLines collection clauses <+: frontLines collection (clauses ++ others) :=
  ⟨_, (frontLines_append collection clauses others).symm⟩

/-- What stands before sorting and paging neither sorts nor cuts. -/
theorem isPaging_frontLines (collection : String) {clauses : List Clause}
    (h : ∀ c ∈ clauses, c.phase ≠ 3) :
    ∀ line ∈ frontLines collection clauses, Page.isPaging line = false := by
  refine List.forall_mem_map.mpr (List.forall_mem_cons.mpr ⟨?_, fun line hline => ?_⟩)
  · have hopens : Opens .forWord (loop .doc [.name collection]) := opens_spaced _ _ _
    rw [Page.isPaging, Page.heading_of_opens (by decide) hopens]
    decide
  · obtain ⟨c, hc, hline⟩ := List.mem_flatMap.mp hline
    exact Page.isPaging_of_phase (h c hc) line hline

/-- Matching, inclusions and groups neither sort nor cut. -/
theorem Query.isPaging_front {q : Query} {topology : Topology} {joined : Bool} {entity : String}
    {index : Nat} {is : List Inclusion} {matching inclusions : List Clause}
    (hmatching : q.matching topology joined = .ok matching)
    (hinclusions : inclusionClauses topology entity index is = .ok inclusions) (o : Outline)
    (columns : List Expr) (collection : String) :
    ∀ line ∈ frontLines collection (matching ++ inclusions ++ o.collect columns),
      Page.isPaging line = false := by
  refine isPaging_frontLines collection fun c hc => ?_
  rcases List.mem_append.mp hc with hc | hc
  · rcases List.mem_append.mp hc with hc | hc
    · simp [phase_matching hmatching c hc]
    · simp [phase_inclusions hinclusions c hc]
  · simp [phase_collect c hc]

/-- Joined, the filter on the first match is the last line of matching. -/
theorem Query.frontLines_matching {q : Query} {topology : Topology} {clauses : List Clause}
    (h : q.matching topology true = .ok clauses) (collection : String) :
    ∃ before, frontLines collection clauses = before ++ ["FILTER hit != null".toList] := by
  obtain ⟨outer, -, h⟩ := bind_eq_ok.mp h
  obtain ⟨inner, -, h⟩ := bind_eq_ok.mp h
  obtain rfl := pure_eq_ok.mp h
  have htext : charsOf (spaced [[.word .filter], Var.hit.lexemes, [.mark .notEqual],
      [.word .null]]) = "FILTER hit != null".toList := by decide
  rw [frontLines_append, List.flatMap_singleton, Clause.lines, List.map_append, List.map_cons,
    List.map_singleton, List.append_cons, htext, ← List.append_assoc]
  exact ⟨_, rfl⟩

/-- An aggregation is one line. -/
theorem Outline.lines_collect {o : Outline} (h : o.totals ≠ []) (columns : List Expr) :
    ∃ line, (o.collect columns).flatMap Clause.lines = [line] ∧ Opens .collect line := by
  rw [collect, if_neg (mt List.isEmpty_iff.mp h), List.flatMap_singleton, Clause.lines]
  refine ⟨_, rfl, ?_⟩
  split <;> exact opens_spaced _ _ _

/-- The text of a statement of contained parts that pages at its end. -/
theorem lines_read {collection : String} {front pages : List Clause} {result : Result}
    (h : ∀ p ∈ (Command.read collection (front ++ pages) result).parts, p.Contained)
    (hpages : ∀ c ∈ pages, c.phase = 3) :
    Text.splitChars '\n' (Command.read collection (front ++ pages) result).text.toList =
      frontLines collection front ++ pages.map Page.line ++ [charsOf result.line] := by
  rw [Command.splitChars_text h, readingLines, List.map_append, ← Page.lines_pages hpages,
    ← frontLines_append]
  rfl

section

variable {lines front : List (List Char)} {last : List Char} {pages : List Clause}
  {entries : List Page} (hlines : lines = front ++ pages.map Page.line ++ [last])
  (hfront : ∀ line ∈ front, Page.isPaging line = false)
include hlines hfront

/-- What sorts or cuts stands behind any line in front. -/
theorem exists_marker {before : List (List Char)} {marker : List Char}
    (h : before ++ [marker] <+: front) : ∃ after, lines = before ++ marker :: after ∧
      ∀ line ∈ before, Page.isPaging line = false := by
  obtain ⟨after, rfl⟩ := h
  refine ⟨after ++ pages.map Page.line ++ [last], ?_, fun line hline => hfront line ?_⟩
  · rw [hlines]
    simp
  · exact List.mem_append_left _ (List.mem_append_left _ hline)

variable (hpages : ∀ c ∈ pages, c.phase = 3) (hlast : Page.isPaging last = false)
include hpages hlast

theorem read?_lines (hcontained : ∀ c ∈ pages, ∀ p ∈ c.parts, p.Contained)
    (hturns : Turns pages entries) : Page.read? lines = some entries := by
  have hmiddle := Page.read?_pages hpages hturns.filled hcontained
  have hlast := Page.read?_of_not (List.forall_mem_singleton.mpr hlast)
  rw [hlines, Page.read?_append (Page.read?_append (Page.read?_of_not hfront) hmiddle) hlast,
    hturns.entries, List.nil_append, List.append_nil]

theorem filter_lines : lines.filter Page.isPaging = pages.map Page.line := by
  have hnone : front.filter Page.isPaging = [] :=
    List.filter_eq_nil_iff.mpr fun line hline => by simp [hfront line hline]
  have hall : (pages.map Page.line).filter Page.isPaging = pages.map Page.line :=
    List.filter_eq_self.mpr (List.forall_mem_map.mpr fun c hc => Page.isPaging_line (hpages c hc))
  rw [hlines, List.filter_append, List.filter_append, hnone, hall, List.filter_singleton, hlast]
  simp

end

/-! ## The statement -/

theorem Query.sound_of_outline {q : Query} {o : Outline} (h : Outline.ofQuery q = .ok o) :
    ∀ s ∈ q.stages, s.Sound :=
  (Outline.exists_addStages_iff.mp ⟨o, (Outline.ofQuery_eq_ok_iff.mp h).1⟩).1

theorem Aql.Command.mem_parts_read {collection : String} {clauses : List Clause} {result : Result}
    {c : Clause} (hc : c ∈ clauses) {p : Part} (hp : p ∈ c.parts) :
    p ∈ (Command.read collection clauses result).parts := by
  have hmem : p ∈ clauses.flatMap Clause.parts := List.mem_flatMap.mpr ⟨c, hc, hp⟩
  exact List.mem_append_left _ (List.mem_cons_of_mem _ (List.mem_cons_of_mem _ hmem))

/-- The lines of a statement that sort and cut, from top to bottom, are the keys and limits of its query
in the caller's order. A limit stands between any two lines that sort, and all of them stand behind the
filter on a first match and behind an aggregation. -/
theorem Mapper.statement_pages {builder m : Mapper} (hb : builder.Resolved) (hm : m.Resolved)
    {entity : String} {ops : List Operation} {q : Query} {st : Statement}
    (hq : builder.query entity ops = .ok q) (h : m.statement q = .ok st) :
    let joined := q.isJoined m.settings
    let lines := Text.splitChars '\n' st.query.toList
    Page.read? lines = some (q.stages.flatMap (Stage.pages (q.sortText joined))) ∧
    ((lines.filter Page.isPaging).IsChain fun line next =>
      Page.heading line = "LIMIT".toList ∨ Page.heading next = "LIMIT".toList) ∧
    (joined = true → ∃ before after, lines = before ++ "FILTER hit != null".toList :: after ∧
      ∀ line ∈ before, Page.isPaging line = false) ∧
    (q.aggregations ≠ [] → ∃ before line after, lines = before ++ line :: after ∧
      Page.heading line = "COLLECT".toList ∧ ∀ line ∈ before, Page.isPaging line = false) := by
  intro joined lines
  obtain ⟨_, o, matching, inclusions, pages, rfl, ho, hmatching, hinclusions, hpages, hcommand⟩ :=
    statement_eq_ok h
  set columns := q.columnsOf joined
  have hcontained := statement_parts_contained hm (hb.query_named hq) h
  have hturns := turns_paging hpages (Query.sound_of_outline ho) fun f hf e he =>
    Query.textOf_sortKey ho hf he
  have hphase := phase_paging hpages
  rw [hcommand] at hcontained
  have hlines : lines = frontLines q.collection (matching ++ inclusions ++ o.collect columns) ++
      pages.map Page.line ++ [charsOf (o.result q columns).line] := by
    change Text.splitChars '\n' st.command.text.toList = _
    rw [hcommand, lines_read hcontained hphase]
  have hfront := Query.isPaging_front hmatching hinclusions o columns q.collection
  have hlast := Page.isPaging_result (o.result q columns)
  refine ⟨?read, ?chain, ?joined, ?aggregated⟩
  case read =>
    refine read?_lines hlines hfront hphase hlast (fun c hc p hp => ?_) hturns
    exact hcontained p (Command.mem_parts_read (List.mem_append_right _ hc) hp)
  case chain =>
    rw [filter_lines hlines hfront hphase hlast]
    exact hturns.isChain
  case joined =>
    intro (hjoined : q.isJoined m.settings = true)
    rw [hjoined] at hmatching
    obtain ⟨before, hbefore⟩ := Query.frontLines_matching hmatching q.collection
    have hmatched := (frontLines_isPrefix_append q.collection matching inclusions).trans
      (frontLines_isPrefix_append _ _ (o.collect columns))
    exact ⟨before, exists_marker hlines hfront (hbefore ▸ hmatched)⟩
  case aggregated =>
    intro hsome
    have htotals : o.totals ≠ [] := by
      rwa [← Outline.aggregations_ofQuery ho, ne_eq, Outline.aggregations_eq_nil_iff] at hsome
    obtain ⟨line, hline, hopens⟩ := Outline.lines_collect htotals columns
    have hcollected : frontLines q.collection (matching ++ inclusions) ++ [charsOf line] <+:
        frontLines q.collection (matching ++ inclusions ++ o.collect columns) := by
      rw [frontLines_append _ _ (o.collect columns), hline]
      exact List.prefix_rfl
    obtain ⟨after, hafter, hnone⟩ := exists_marker hlines hfront hcollected
    exact ⟨_, charsOf line, after, hafter, Page.heading_of_opens (by decide) hopens, hnone⟩

/-- Persons sorted by the balances of their accounts and by their ages, of which a part is sorted
again. -/
theorem Mapper.statement_pages_persons :
    let ops := [.order ["accounts.balance"] .descending, .order ["age"] .ascending, .limit 10 5,
      .order ["id", "accounts.id"] .ascending, .limit 3 0]
    ∃ q st, Bank.mapper.query "Person" ops = .ok q ∧ Bank.mapper.statement q = .ok st ∧
      let lines := Text.splitChars '\n' st.query.toList
      Page.read? lines = some [.key "hit.v0" .descending, .key "doc.age" .ascending, .cut 5 10,
        .key "doc._key" .ascending, .key "hit.v1" .ascending, .cut 0 3] ∧
      ((lines.filter Page.isPaging).IsChain fun line next =>
        Page.heading line = "LIMIT".toList ∨ Page.heading next = "LIMIT".toList) ∧
      ∃ before after, lines = before ++ "FILTER hit != null".toList :: after ∧
        ∀ line ∈ before, Page.isPaging line = false := by
  intro ops
  have hrun : (do
      let q ← Bank.mapper.query "Person" ops
      let _ ← Bank.mapper.statement q
      let joined := q.isJoined Bank.mapper.settings
      return (joined, q.stages.flatMap (Stage.pages (q.sortText joined)))).toOption =
    some (true, [.key "hit.v0" .descending, .key "doc.age" .ascending, .cut 5 10,
      .key "doc._key" .ascending, .key "hit.v1" .ascending, .cut 0 3]) := by decide +kernel
  obtain ⟨q, hq, hrun⟩ := bind_eq_ok.mp (eq_ok_of_toOption hrun)
  obtain ⟨st, hst, hrun⟩ := bind_eq_ok.mp hrun
  obtain ⟨hjoined, hpages⟩ := Prod.mk.inj (pure_eq_ok.mp hrun)
  obtain ⟨hread, hchain, hafter, -⟩ :=
    statement_pages Bank.mapper_resolved Bank.mapper_resolved hq hst
  exact ⟨q, st, hq, hst, hpages ▸ hread, hchain, hafter hjoined⟩

end GraphMapper
