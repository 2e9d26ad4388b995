import GraphMapper.Proofs.Query.Names

/-!
# Literals and their placeholders

The filters of a query stand in its statement in another order than in the query when some of them go
into the first match, and literals are numbered as they stand in the statement. Every filter is there
once, as a condition in which each literal has a placeholder that is bound to its own value
(`Predicate.Written`). The placeholders of literals are numbered from zero in the order of the text, and
each of them has one bind variable (`Mapper.statement_literals`).
-/

namespace GraphMapper

open Outcome Aql

/-! ## Conditions of filters -/

def Aql.Step.test? : Step → Option Test
  | filter test => some test
  | traverse .. => none

/-- The conditions of the filters in a clause. -/
def Aql.Clause.tests : Clause → List Test
  | step s => s.test?.toList
  | firstMatch steps _ => steps.filterMap Step.test?
  | _ => []

/-- The condition says what the predicate does. A literal has a placeholder, which these values bind to
the value of the literal. -/
inductive Predicate.Written (values : Dict String Json) : Predicate → Test → Prop
  | literal {f : FieldPath} {comparison : Comparison} {v : Value} {n : Nat}
      (bound : Dict.find? values (Slot.literal n).name = some v.toJson) :
      Written values (.compare f comparison (.literal v)) (comparison.test f (.literal n))
  | parameter {f : FieldPath} {comparison : Comparison} {name : String} :
      Written values (.compare f comparison (.parameter name)) (comparison.test f (.named name))
  | isNull {f : FieldPath} {negated : Bool} :
      Written values (.isNull f negated) (.isNull f.expr negated)
  | all {ps : List Predicate} {ts : List Test} (members : List.Forall₂ (Written values) ps ts) :
      Written values (.all ps) (.all ts)
  | any {ps : List Predicate} {ts : List Test} (members : List.Forall₂ (Written values) ps ts) :
      Written values (.any ps) (.any ts)
  | not {p : Predicate} {t : Test} (member : Written values p t) : Written values (.not p) (.not t)

/-- The value that an operand has from the start. -/
def Operand.json? : Operand → Option Json
  | literal v => some v.toJson
  | parameter _ => none

/-- The literals from `next` on are bound to their values. -/
abbrev Aql.Binds (values : Dict String Json) (next : Nat) (literals : List Value) : Prop :=
  Filled (fun slot => Dict.find? values slot.name) Operand.json? next literals

variable {values : Dict String Json}

namespace Predicate

mutual
/-- A predicate is written with its literals numbered from `next` on. -/
theorem written_test {next : Nat} : (p : Predicate) → Binds values next p.literals →
    p.Written values (p.test next)
  | .compare _ _ (.literal v), hbinds => .literal (hbinds 0 v rfl)
  | .compare _ _ (.parameter _), _ => .parameter
  | .isNull _ _, _ => .isNull
  | .all members, hbinds => .all (written_tests members hbinds)
  | .any members, hbinds => .any (written_tests members hbinds)
  | .not member, hbinds => .not (written_test member hbinds)
theorem written_tests {next : Nat} : (ps : List Predicate) → Binds values next (memberLiterals ps) →
    List.Forall₂ (Written values) ps (memberTests next ps)
  | [], _ => .nil
  | p :: rest, hbinds => by
    obtain ⟨hfirst, hrest⟩ := hbinds.append
    exact .cons (written_test p hfirst) (written_tests rest hrest)
end

end Predicate

/-! ## Filters of a statement -/

/-- The steps of stages have the filters among these, in order. -/
theorem Stage.written_steps {topology : Topology} {stages : List Stage} {next : Nat}
    {made : List Step} (h : steps topology next stages = .ok made)
    (hbinds : Binds values next (stages.flatMap literals)) :
    List.Forall₂ (Predicate.Written values) (stages.filterMap predicate?)
      (made.filterMap Step.test?) := by
  induction stages generalizing next made with
  | nil =>
    obtain rfl := Except.ok.inj h
    exact .nil
  | cons s rest ih =>
    obtain ⟨hfirst, hrest⟩ := (List.flatMap_cons ▸ hbinds).append
    cases s with
    | filter p =>
      obtain ⟨others, hothers, h⟩ := bind_eq_ok.mp h
      obtain rfl := pure_eq_ok.mp h
      exact .cons (p.written_test hfirst) (ih hothers hrest)
    | traverse t =>
      obtain ⟨step, hstep, h⟩ := bind_eq_ok.mp h
      obtain ⟨others, hothers, h⟩ := bind_eq_ok.mp h
      obtain rfl := pure_eq_ok.mp h
      obtain ⟨hop, -, hstep⟩ := bind_eq_ok.mp hstep
      obtain rfl := pure_eq_ok.mp hstep
      have hwritten := ih hothers hrest
      exact hwritten
    | _ => exact ih h hrest

namespace Query

variable {q : Query}

/-- Matching has the filters of the outer loop and then those of the first match, the literals of the
latter numbered after those of the former. -/
theorem written_matching {topology : Topology} {joined : Bool} {clauses : List Clause}
    (h : q.matching topology joined = .ok clauses) (hbinds : Binds values 0 (q.literals joined)) :
    List.Forall₂ (Predicate.Written values)
      (((q.split joined).1 ++ (q.split joined).2).filterMap Stage.predicate?)
      (clauses.flatMap Clause.tests) := by
  rw [literals, List.flatMap_append] at hbinds
  obtain ⟨houterBinds, hinnerBinds⟩ := hbinds.append
  obtain ⟨outer, houter, h⟩ := bind_eq_ok.mp h
  have hsteps : (outer.map Clause.step).flatMap Clause.tests = outer.filterMap Step.test? := by
    rw [List.flatMap_map, List.filterMap_eq_flatMap_toList]
    rfl
  have houterWritten := Stage.written_steps houter houterBinds
  rw [List.filterMap_append]
  cases joined with
  | false =>
    obtain rfl := pure_eq_ok.mp h
    rw [hsteps]
    exact (List.append_nil _).symm ▸ houterWritten
  | true =>
    obtain ⟨inner, hinner, h⟩ := bind_eq_ok.mp h
    obtain rfl := pure_eq_ok.mp h
    rw [Nat.zero_add] at hinnerBinds
    have hmatch : [Clause.firstMatch inner q.columns].flatMap Clause.tests =
        inner.filterMap Step.test? := List.append_nil _
    rw [List.flatMap_append, hsteps, hmatch]
    exact List.rel_append houterWritten (Stage.written_steps hinner hinnerBinds)

/-- There are as many literals in a statement as in the filters. -/
theorem length_literals (joined : Bool) :
    (q.literals joined).length = (q.stages.flatMap Stage.literals).length :=
  ((q.split_perm joined).flatMap_right _).length_eq

end Query

/-! ## Clauses without filters -/

theorem Aql.Clause.Includes.tests {c : Clause} (h : c.Includes) : c.tests = [] := by
  obtain ⟨index, cardinality, edges, rfl⟩ := h
  rfl

theorem Aql.Clause.Pages.tests {c : Clause} {P : Expr → Prop} (h : c.Pages P) : c.tests = [] := by
  cases h <;> rfl

theorem Outline.tests_collect (o : Outline) (columns : List Expr) :
    (o.collect columns).flatMap Clause.tests = [] := by
  unfold collect
  split <;> rfl

/-- The conditions in the statement of a query are those of its filters. -/
theorem Mapper.statement_written {m : Mapper} {q : Query} {st : Statement}
    (h : m.statement q = .ok st) : ∃ clauses result, st.command = .read q.collection clauses result ∧
      List.Forall₂ (Predicate.Written st.bindVars)
        (((q.split (q.isJoined m.settings)).1 ++ (q.split (q.isJoined m.settings)).2).filterMap
          Stage.predicate?) (clauses.flatMap Clause.tests) := by
  obtain ⟨joined, o, matching, inclusions, pages, rfl, -, hmatching, hinclusions, hpages,
    hcommand⟩ := statement_eq_ok h
  obtain ⟨hbindVars, -, -⟩ := statement_binds h
  have hbinds : Binds st.bindVars 0 (q.literals (q.isJoined m.settings)) := by
    intro i v hv
    rw [hbindVars, Nat.zero_add]
    exact Statement.find?_literalValues hv
  have hincluded : inclusions.flatMap Clause.tests = [] :=
    List.flatMap_eq_nil_iff.mpr fun c hc => (includes_of_inclusionClauses hinclusions c hc).tests
  have hpaged : pages.flatMap Clause.tests = [] := by
    refine List.flatMap_eq_nil_iff.mpr fun c hc => ?_
    have hpage : c.Pages fun _ => True := pages_of_paging hpages (by simp) (by simp) c hc
    exact hpage.tests
  refine ⟨_, _, hcommand, ?_⟩
  rw [List.flatMap_append, List.flatMap_append, List.flatMap_append, hincluded, hpaged,
    o.tests_collect, List.append_nil, List.append_nil, List.append_nil]
  exact Query.written_matching hmatching hbinds

/-! ## Placeholders of literals -/

/-- Among slots whose other names are none of literals, the names of literals are those of the literal
slots. -/
theorem Aql.filter_isLiteralName {slots : List Slot}
    (h : ∀ name, Slot.named name ∈ slots → isLiteralName name = false) :
    (slots.map Slot.name).filter isLiteralName =
      (slots.filterMap Slot.literal?).map fun n => (Slot.literal n).name := by
  induction slots with
  | nil => rfl
  | cons slot rest ih =>
    have hrest := ih fun name hname => h name (List.mem_cons_of_mem _ hname)
    cases slot with
    | literal n =>
      rw [List.map_cons, List.filter_cons_of_pos (Slot.isLiteralName_literal n), hrest]
      rfl
    | named name =>
      have hname : isLiteralName (Slot.named name).name = false := h name List.mem_cons_self
      rw [List.map_cons, List.filter_cons_of_neg (by simp [hname]), hrest]
      rfl

/-! ## Statements -/

/-- Every filter of a query is written once in its statement, each literal with a placeholder of its own
that is bound to its value. The literals are `lit0`, `lit1` and so on: these are the bind variables that
the statement starts with, and in the text their placeholders follow each other, each one once. -/
theorem Mapper.statement_literals {builder m : Mapper} (hb : builder.Resolved) (hm : m.Resolved)
    {entity : String} {ops : List Operation} {q : Query} {st : Statement}
    (hq : builder.query entity ops = .ok q) (h : m.statement q = .ok st) :
    (∃ clauses result filters, st.command = .read q.collection clauses result ∧
      filters.Perm (q.stages.filterMap Stage.predicate?) ∧
      List.Forall₂ (Predicate.Written st.bindVars) filters (clauses.flatMap Clause.tests)) ∧
    (Dict.keys st.bindVars).Perm ((List.range (q.stages.flatMap Stage.literals).length).map
      fun n => "lit" ++ toString n) ∧
    (placeholders st.query.toList).filter isLiteralName =
      (List.range (q.stages.flatMap Stage.literals).length).map fun n => "lit" ++ toString n := by
  have hnamed := hb.query_named hq
  rw [← Query.length_literals (q.isJoined m.settings)]
  refine ⟨?filters, ?keys, ?placeholders⟩
  case filters =>
    obtain ⟨clauses, result, hcommand, hwritten⟩ := statement_written h
    exact ⟨clauses, result, _, hcommand, (q.split_perm _).filterMap _, hwritten⟩
  case keys =>
    obtain ⟨hbindVars, -, -⟩ := statement_binds h
    have hnodup := literalValues_keys_nodup (q.literals (q.isJoined m.settings))
    have hkeys := (Dict.ofEntries_perm hnodup).map Prod.fst
    rw [hbindVars]
    exact keys_literalValues (q.literals (q.isJoined m.settings)) ▸ hkeys
  case placeholders =>
    obtain ⟨names, hshows, hnames⟩ := statement_shows h
    rw [Statement.query, Command.placeholders_text (statement_parts_contained hm hnamed h),
      filter_isLiteralName ?parameters, Command.slots, hshows.literals, List.range_eq_range']
    · rfl
    case parameters =>
      intro name hname
      obtain ⟨part, hpart, hslot⟩ := List.mem_filterMap.mp hname
      obtain rfl := Part.eq_of_slot?_eq_some hslot
      have hchecked := hnamed.parameters name ((hnames name).mp (hshows.mem_of_named hpart))
      rw [isParameterName, Bool.and_eq_true, Bool.not_eq_true'] at hchecked
      exact hchecked.2

/-- A condition on the owners of accounts stands before one on the accounts themselves in the query, and
behind it in the statement. -/
theorem Mapper.statement_literals_owners :
    let ops := [.filter (.any [.compare "owner.age" .lessThan (.literal (.int 18)),
        .compare "owner.age" .isIn (.parameter "ages"),
        .not (.compare "owner.id" .startsWith (.literal (.string "@lit0")))]),
      .filter (.compare "balance" .greaterThan (.literal (.int 100)))]
    ∃ q st, Bank.mapper.query "Account" ops = .ok q ∧ Bank.mapper.statement q = .ok st ∧
      (st.bindVars.map fun entry : String × Json => (entry.1, entry.2.text)) =
        [("lit0", "100"), ("lit1", "18"), ("lit2", "\"@lit0\"")] ∧
      (∃ clauses result filters, st.command = .read q.collection clauses result ∧
        filters.Perm (q.stages.filterMap Stage.predicate?) ∧
        List.Forall₂ (Predicate.Written st.bindVars) filters (clauses.flatMap Clause.tests)) ∧
      (Dict.keys st.bindVars).Perm ["lit0", "lit1", "lit2"] ∧
      (placeholders st.query.toList).filter isLiteralName = ["lit0", "lit1", "lit2"] := by
  intro ops
  have hrun : (do
      let q ← Bank.mapper.query "Account" ops
      let st ← Bank.mapper.statement q
      return ((q.stages.flatMap Stage.literals).length,
        st.bindVars.map fun entry : String × Json => (entry.1, entry.2.text))).toOption =
    some (3, [("lit0", "100"), ("lit1", "18"), ("lit2", "\"@lit0\"")]) := by decide +kernel
  obtain ⟨q, hq, hrun⟩ := bind_eq_ok.mp (eq_ok_of_toOption hrun)
  obtain ⟨st, hst, hrun⟩ := bind_eq_ok.mp hrun
  obtain ⟨hcount, hvalues⟩ := Prod.mk.inj (pure_eq_ok.mp hrun)
  have hliterals := statement_literals Bank.mapper_resolved Bank.mapper_resolved hq hst
  rw [hcount] at hliterals
  exact ⟨q, st, hq, hst, hvalues, hliterals⟩

end GraphMapper
