import GraphMapper.Proofs.Dict
import GraphMapper.Proofs.Outcome
import GraphMapper.Proofs.Mapper
import GraphMapper.Query.Draft
import GraphMapper.Query.Statement

/-!
# Literals and the text of a statement

No literal has any part in the text of its statement. `Query.blank` puts null in the place of every
literal; blanking a query before its statement is made does the same as blanking the values of the
statement afterwards (`Mapper.statement_blank`). Queries that differ in the values of literals alone
are the ones that are equal once they are blank, and their statements show the same text and ask for
the same bind variables (`Mapper.statement_eq_of_blank`).
-/

namespace GraphMapper

open Outcome

/-! ## Predicates -/

/-- The operand with null in the place of a literal. -/
def Operand.blank : Operand → Operand
  | parameter name => parameter name
  | literal _ => literal .null

namespace Predicate

mutual
/-- The predicate with null in the place of every literal. -/
def blank : Predicate → Predicate
  | compare field comparison operand => compare field comparison operand.blank
  | isNull field negated => isNull field negated
  | all members => all (blankMembers members)
  | any members => any (blankMembers members)
  | not member => not member.blank
def blankMembers : List Predicate → List Predicate
  | [] => []
  | p :: rest => p.blank :: blankMembers rest
end

mutual
/-- There are as many literals as before. -/
theorem literals_blank : (p : Predicate) → p.blank.literals = p.literals.map fun _ => Value.null
  | .compare _ _ (.literal _) => rfl
  | .compare _ _ (.parameter _) => rfl
  | .isNull _ _ => rfl
  | .all members => memberLiterals_blank members
  | .any members => memberLiterals_blank members
  | .not member => literals_blank member
theorem memberLiterals_blank : (ps : List Predicate) →
    memberLiterals (blankMembers ps) = (memberLiterals ps).map fun _ => Value.null
  | [] => rfl
  | p :: rest => by
    rw [blankMembers, memberLiterals, memberLiterals, List.map_append, literals_blank p,
      memberLiterals_blank rest]
end

theorem literals_length_blank (p : Predicate) : p.blank.literals.length = p.literals.length := by
  rw [literals_blank, List.length_map]

mutual
theorem parameters_blank : (p : Predicate) → p.blank.parameters = p.parameters
  | .compare _ _ (.literal _) => rfl
  | .compare _ _ (.parameter _) => rfl
  | .isNull _ _ => rfl
  | .all members => memberParameters_blank members
  | .any members => memberParameters_blank members
  | .not member => parameters_blank member
theorem memberParameters_blank : (ps : List Predicate) →
    memberParameters (blankMembers ps) = memberParameters ps
  | [] => rfl
  | p :: rest => by
    rw [blankMembers, memberParameters, memberParameters, parameters_blank p,
      memberParameters_blank rest]
end

mutual
theorem rootOnly_blank : (p : Predicate) → p.blank.rootOnly = p.rootOnly
  | .compare _ _ _ => rfl
  | .isNull _ _ => rfl
  | .all members => membersRootOnly_blank members
  | .any members => membersRootOnly_blank members
  | .not member => rootOnly_blank member
theorem membersRootOnly_blank : (ps : List Predicate) →
    membersRootOnly (blankMembers ps) = membersRootOnly ps
  | [] => rfl
  | p :: rest => by
    rw [blankMembers, membersRootOnly, membersRootOnly, rootOnly_blank p,
      membersRootOnly_blank rest]
end

mutual
/-- A condition shows the numbers of literals and nothing else of them. -/
theorem test_blank : (p : Predicate) → ∀ next, p.blank.test next = p.test next
  -- A literal is shown as the slot `next`, whatever its value.
  | .compare _ _ (.literal _), _ => rfl
  | .compare _ _ (.parameter _), _ => rfl
  | .isNull _ _, _ => rfl
  | .all members, next => congrArg Aql.Test.all (memberTests_blank members next)
  | .any members, next => congrArg Aql.Test.any (memberTests_blank members next)
  | .not member, next => congrArg Aql.Test.not (test_blank member next)
theorem memberTests_blank : (ps : List Predicate) →
    ∀ next, memberTests next (blankMembers ps) = memberTests next ps
  | [], _ => rfl
  | p :: rest, next => by
    rw [blankMembers, memberTests, memberTests, test_blank p, literals_length_blank,
      memberTests_blank rest]
end

end Predicate

/-! ## Stages -/

namespace Stage

/-- The stage with null in the place of every literal. -/
def blank : Stage → Stage
  | filter p => filter p.blank
  | s => s

/-- What does not look at filters does not see the change. -/
theorem view_blank {α : Type} (view : Stage → α)
    (hfilter : ∀ p : Predicate, view (filter p.blank) = view (filter p)) (s : Stage) :
    view s.blank = view s := by
  cases s with
  | filter p => exact hfilter p
  | _ => rfl

theorem literals_blank (s : Stage) : s.blank.literals = s.literals.map fun _ => Value.null := by
  cases s with
  | filter p => exact p.literals_blank
  | _ => rfl

theorem flatMap_literals_blank (ss : List Stage) :
    (ss.map blank).flatMap literals = (ss.flatMap literals).map fun _ => Value.null := by
  rw [List.flatMap_map, List.map_flatMap]
  exact List.flatMap_congr fun s _ => s.literals_blank

theorem filter_isRootFilter_blank (ss : List Stage) (test : Bool → Bool) :
    (ss.map blank).filter (fun s => test s.isRootFilter) =
      (ss.filter fun s => test s.isRootFilter).map blank := by
  rw [List.filter_map]
  congr 2
  funext s
  exact congrArg test (view_blank isRootFilter Predicate.rootOnly_blank s)

/-- Filters and traversals become the same steps. -/
theorem steps_blank (topology : Topology) (ss : List Stage) (next : Nat) :
    steps topology next (ss.map blank) = steps topology next ss := by
  induction ss generalizing next with
  | nil => rfl
  | cons s rest ih =>
    rw [List.map_cons]
    cases s with
    | filter p => rw [blank, steps, steps, p.test_blank, p.literals_length_blank, ih]
    | traverse t =>
      rw [steps, ← ih]
      rfl
    | _ => exact ih next

end Stage

/-! ## Queries -/

namespace Query

/-- The query with null in the place of every literal. -/
def blank (q : Query) : Query := { q with stages := q.stages.map Stage.blank }

/-- What is put together from stages that do not show their literals. -/
theorem flatMap_stages_blank {α : Type} (view : Stage → List α)
    (hfilter : ∀ p : Predicate, view (.filter p.blank) = view (.filter p)) (q : Query) :
    q.blank.stages.flatMap view = q.stages.flatMap view := by
  rw [blank, List.flatMap_map]
  exact List.flatMap_congr fun s _ => s.view_blank view hfilter

theorem filterMap_stages_blank {α : Type} (view : Stage → Option α)
    (hfilter : ∀ p : Predicate, view (.filter p.blank) = view (.filter p)) (q : Query) :
    q.blank.stages.filterMap view = q.stages.filterMap view := by
  rw [blank, List.filterMap_map]
  exact List.filterMap_congr fun s _ => s.view_blank view hfilter

variable (q : Query)

theorem inclusions_blank : q.blank.inclusions = q.inclusions :=
  filterMap_stages_blank _ (fun _ => rfl) q

theorem isJoined_blank (settings : Settings) : q.blank.isJoined settings = q.isJoined settings := by
  rw [isJoined, isJoined, hasTraversal, hasTraversal, traversals, traversals,
    filterMap_stages_blank _ (fun _ => rfl)]

theorem columns_blank : q.blank.columns = q.columns := by
  rw [columns, columns, flatMap_stages_blank _ (fun _ => rfl)]

theorem parameters_blank : q.blank.parameters = q.parameters := by
  rw [parameters, parameters, flatMap_stages_blank _ Predicate.parameters_blank]

theorem split_blank (joined : Bool) :
    q.blank.split joined =
      ((q.split joined).1.map Stage.blank, (q.split joined).2.map Stage.blank) := by
  cases joined with
  | false => rfl
  | true =>
    have houter := Stage.filter_isRootFilter_blank q.stages id
    have hinner := Stage.filter_isRootFilter_blank q.stages Bool.not
    exact congrArg₂ Prod.mk houter hinner

theorem literals_blank (joined : Bool) :
    q.blank.literals joined = (q.literals joined).map fun _ => Value.null := by
  rw [literals, literals, split_blank, ← List.map_append, Stage.flatMap_literals_blank]

theorem matching_blank (topology : Topology) (joined : Bool) :
    q.blank.matching topology joined = q.matching topology joined := by
  have hcount := congrArg List.length (Stage.flatMap_literals_blank (q.split joined).1)
  rw [List.length_map] at hcount
  rw [matching, matching, split_blank, columns_blank]
  dsimp only
  rw [Stage.steps_blank, Stage.steps_blank, hcount]

end Query

/-! ## Rows -/

theorem Outline.ofQuery_blank (q : Query) : Outline.ofQuery q.blank = Outline.ofQuery q := by
  have hstage : ∀ o s, Outline.addStage o (Stage.blank s) = Outline.addStage o s :=
    fun o s => s.view_blank o.addStage fun _ => rfl
  rw [ofQuery, ofQuery, Query.blank, List.foldlM_map]
  simp only [hstage]

theorem Outline.result_blank (o : Outline) (q : Query) (columns : List Aql.Expr) :
    o.result q.blank columns = o.result q columns := by
  rw [result, result, Query.includedEntries, Query.includedEntries, q.inclusions_blank]

theorem paging_blank (sortKey : FieldPath → Except Error Aql.Expr) (ss : List Stage)
    (pending : List (Aql.Expr × SortDirection)) :
    paging sortKey pending (ss.map Stage.blank) = paging sortKey pending ss := by
  induction ss generalizing pending with
  | nil => rfl
  | cons s rest ih =>
    rw [List.map_cons]
    cases s with
    | order fields direction =>
      rw [paging]
      simp only [← ih]
      rfl
    | limit count offset =>
      rw [paging, ← ih]
      rfl
    | _ => exact ih pending

/-! ## Statements -/

/-- The statement with null in the place of every value. -/
def Statement.blank (st : Statement) : Statement :=
  { st with bindVars := Dict.mapValues (fun _ => Value.null.toJson) st.bindVars }

theorem literalValues_blank (literals : List Value) :
    literalValues (literals.map fun _ => Value.null) =
      (literalValues literals).map fun v => (v.1, Value.null.toJson) := by
  apply List.ext_getElem
  · simp [literalValues]
  · intro n _ _
    simp [literalValues]

theorem Statement.closed_blank (command : Aql.Command) (literals : List Value) :
    Statement.closed command (literalValues (literals.map fun _ => Value.null)) =
      (Statement.closed command (literalValues literals)).blank := by
  rw [blank, closed, closed, literalValues_blank, Dict.mapValues_ofEntries, List.map_map,
    List.map_map]
  rfl

/-- It makes no difference whether the literals are blanked before the statement is made or its
values afterwards. -/
theorem Mapper.statement_blank (m : Mapper) (q : Query) :
    m.statement q.blank = (m.statement q).map Statement.blank := by
  have hentity : q.blank.entity = q.entity := rfl
  have hcollection : q.blank.collection = q.collection := rfl
  have hstages : q.blank.stages = q.stages.map Stage.blank := rfl
  unfold statement
  rw [Outline.ofQuery_blank, q.isJoined_blank, q.columns_blank]
  simp only [q.matching_blank, q.inclusions_blank, q.literals_blank, q.parameters_blank,
    Outline.result_blank, hentity, hcollection, hstages, paging_blank, Statement.closed_blank,
    map_bind]
  rfl

/-- Queries that differ in the values of their literals alone fail with the same error, or their
statements have the same text, lack the same parameters and have the same bind variables. -/
theorem Mapper.statement_eq_of_blank (m : Mapper) {q q' : Query} (h : q.blank = q'.blank) :
    Agree (fun st st' => st.query = st'.query ∧ st.unbound = st'.unbound ∧
      Dict.keys st.bindVars = Dict.keys st'.bindVars) (m.statement q) (m.statement q') := by
  refine Agree.of_map_eq (fun st st' hblank => ?_) (?_ :
    (m.statement q).map Statement.blank = (m.statement q').map Statement.blank)
  · have hcommand : st.command = st'.command := congrArg (·.command) hblank
    have hunbound : st.unbound = st'.unbound := congrArg (·.unbound) hblank
    have hkeys := congrArg (fun s : Statement => Dict.keys s.bindVars) hblank
    simp only [Statement.blank, Dict.keys_mapValues] at hkeys
    exact ⟨congrArg Aql.Command.text hcommand, hunbound, hkeys⟩
  · rw [← m.statement_blank, ← m.statement_blank, h]

/-! ## Accounts by balance and age -/

/-- Accounts of a balance whose owner does not have one of some ages or is under the age of a
parameter. -/
def Bank.selection (balance : Value) (ages : List Value) : Query where
  entity := "Account"
  collection := "accounts"
  stages :=
    let age : FieldPath := ⟨"owner.age", .traversal 0, "Person", some ⟨["age"], .integer⟩⟩
    [.filter (.compare ⟨"balance", .root, "Account", some ⟨["balance"], .integer⟩⟩
        .greaterThan (.literal balance)),
      .traverse ⟨0, .root, "Account", "owner", "Person", .outbound, 1⟩,
      .filter (.any [.not (.compare age .isIn (.literal (.list ages))),
        .compare age .lessThan (.parameter "limit")])]

/-- Two selections with other balances and ages show one text. -/
theorem Mapper.statement_eq_of_blank_selections :
    let q := Bank.selection (.int 100) [.int 17, .int 18]
    let q' := Bank.selection (.string "FILTER false") []
    q.blank = q'.blank ∧ ∃ st st', Bank.mapper.statement q = .ok st ∧
      Bank.mapper.statement q' = .ok st' ∧
      Dict.keys st.bindVars = ["lit0", "lit1"] ∧ st.query = st'.query ∧
        st.unbound = st'.unbound ∧ Dict.keys st.bindVars = Dict.keys st'.bindVars := by
  intro q q'
  have hblank : q.blank = q'.blank := rfl
  have hkeys : (Bank.mapper.statement q).toOption.map (fun st => Dict.keys st.bindVars) =
    some ["lit0", "lit1"] := by decide +kernel
  have hagree := Bank.mapper.statement_eq_of_blank hblank
  generalize hst : Bank.mapper.statement q = x at hkeys hagree
  generalize hst' : Bank.mapper.statement q' = y at hagree
  cases hagree with
  | error e => cases hkeys
  | ok hsame => exact ⟨hblank, _, _, rfl, rfl, Option.some.inj hkeys, hsame⟩

end GraphMapper
