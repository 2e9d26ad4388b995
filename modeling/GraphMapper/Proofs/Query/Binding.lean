import GraphMapper.Proofs.Mutation.Complete
import GraphMapper.Proofs.Query.Matching
import GraphMapper.Proofs.Query.Names

/-!
# Bind variables and placeholders

The statements that a mapper makes (`Mapper.Makes`) are those of queries, which may have parameters,
and those that read, change and connect documents, which have none. Of all of them the placeholders in
the text match the bind variables, whatever a caller binds (`Mapper.Makes.binds_reliable`).
-/

namespace GraphMapper

open Outcome Aql

/-! ## Queries -/

/-- The statement of a query starts with values for its literals. -/
theorem Mapper.statement_bound {m : Mapper} (hm : m.Resolved) {q : Query} (hq : q.Named)
    {st : Statement} (h : m.statement q = .ok st) :
    ∃ fixed, st.Bound fixed (q.stages.flatMap Stage.parameters) [] := by
  obtain ⟨names, hshows, hnames⟩ := statement_shows h
  obtain ⟨hbindVars, hunbound, hparameters⟩ := statement_binds h
  have hmem : ∀ name, name ∈ q.parameters ↔ name ∈ q.stages.flatMap Stage.parameters :=
    fun name => mem_sortDistinct
  have hnotLiteral : ∀ name ∈ q.stages.flatMap Stage.parameters, ∀ n,
      (Slot.literal n).name ≠ name :=
    fun name hname => Slot.literal_name_ne (hq.parameters name ((hmem name).mpr hname))
  refine ⟨(List.range (q.literals (q.isJoined m.settings)).length).map fun n =>
    (Slot.literal n).name, ?bound⟩
  constructor
  case notLiteral => exact hnotLiteral
  case placeholders =>
    intro name
    rw [Statement.query, Command.placeholders_text (statement_parts_contained hm hq h),
      Command.slots, hshows.mem_names, hnames, hmem]
  case separate =>
    intro name hname hparameter
    obtain ⟨n, -, rfl⟩ := List.mem_map.mp hname
    exact hnotLiteral _ hparameter n rfl
  case mem_parameters =>
    rw [hparameters]
    exact hmem
  case mem_keys =>
    intro name
    rw [hbindVars, Statement.closed, Dict.mem_keys_ofEntries, keys_literalValues]
    simp
  case mem_unbound =>
    intro name
    rw [hunbound, hmem]
    simp
  case nodup =>
    rw [hunbound]
    exact sortDistinct_nodup _
  case sorted =>
    rw [hbindVars]
    exact Statement.closed_sorted _ _

/-! ## All statements -/

namespace Mapper

/-- The statements that a mapper makes, each with the parameters that a caller may bind. A query may
have been built by another mapper. -/
inductive Makes (m : Mapper) : List String → Statement → Prop
  | query {builder : Mapper} {entity : String} {ops : List Operation} {q : Query} {st : Statement} :
      builder.Resolved → builder.query entity ops = .ok q → m.statement q = .ok st →
      Makes m (q.stages.flatMap Stage.parameters) st
  | insert {freshKey : String} {d : Document} {made : List Statement} {st : Statement} :
      m.insert freshKey d = .ok made → st ∈ made → Makes m [] st
  | update {d : Document} {made : List Statement} {st : Statement} :
      m.update d = .ok made → st ∈ made → Makes m [] st
  | remove {entity key : String} {made : List Statement} {st : Statement} :
      m.remove entity key = .ok made → st ∈ made → Makes m [] st
  | link {source : Handle} {relation : String} {target : Handle} {made : List Statement}
      {st : Statement} : m.link source relation target = .ok made → st ∈ made → Makes m [] st
  | unlink {source : Handle} {relation : String} {target : Option Handle} {made : List Statement}
      {st : Statement} : m.unlink source relation target = .ok made → st ∈ made → Makes m [] st
  | assign {source : Handle} {relation : String} {targets : List Handle} {made : List Statement}
      {st : Statement} : m.assign source relation targets = .ok made → st ∈ made → Makes m [] st
  | read {handle : Handle} {st : Statement} : m.read handle = .ok st → Makes m [] st

variable {m : Mapper} {parameters : List String} {st : Statement}

theorem Makes.bound (hm : m.Resolved) (h : m.Makes parameters st) :
    ∃ fixed, st.Bound fixed parameters [] := by
  have hmutation : ∀ (mutation : Mutation) (made : List Statement),
      mutation.statements m = .ok made → st ∈ made → ∃ fixed, st.Bound fixed [] [] :=
    fun _ _ hmade hst => (Mutation.complete hm hmade st hst).bound
  cases h with
  | query hbuilder hq hst => exact statement_bound hm (hbuilder.query_named hq) hst
  | insert hmade hst => exact hmutation (.insert _ _) _ hmade hst
  | update hmade hst => exact hmutation (.update _) _ hmade hst
  | remove hmade hst => exact hmutation (.remove _ _) _ hmade hst
  | link hmade hst => exact hmutation (.edges (.link _ _ _)) _ hmade hst
  | unlink hmade hst => exact hmutation (.edges (.unlink _ _ _)) _ hmade hst
  | assign hmade hst => exact hmutation (.edges (.assign _ _ _)) _ hmade hst
  | read hst => exact (read_complete hst).bound

/-- Of every statement that a mapper makes, after whatever binds, the placeholders of the text are
the bind variables and the names that lack a value. A bind succeeds exactly for a parameter and
changes its value alone, and the statement can be sent once all parameters have been bound. -/
theorem Makes.binds_reliable (hm : m.Resolved) (h : m.Makes parameters st)
    (bs : List (String × Value)) : st.Reliable parameters bs := by
  obtain ⟨fixed, hbound⟩ := h.bound hm
  exact hbound.reliable bs

/-- Persons between two ages with an account above the lower one, which is bound twice. -/
theorem Makes.binds_reliable_ages :
    let ops := [.filter (.all [.compare "age" .greaterThan (.parameter "least"),
        .compare "age" .lessThan (.literal (.int 90))]),
      .filter (.compare "accounts.balance" .greaterThan (.parameter "least"))]
    let bs := [("least", .int 18), ("lit0", .int 0), ("least", .int 21)]
    ∃ q st, Bank.mapper.query "Person" ops = .ok q ∧ Bank.mapper.statement q = .ok st ∧
      st.unbound = ["least"] ∧ Dict.keys st.bindVars = ["lit0"] ∧
      st.Reliable ["least", "least"] bs := by
  intro ops bs
  have hrun : (do
      let q ← Bank.mapper.query "Person" ops
      let st ← Bank.mapper.statement q
      return (q.stages.flatMap Stage.parameters, st.unbound, Dict.keys st.bindVars)).toOption =
        some (["least", "least"], ["least"], ["lit0"]) := by decide +kernel
  obtain ⟨q, hq, hrun⟩ := bind_eq_ok.mp (eq_ok_of_toOption hrun)
  obtain ⟨st, hst, hrun⟩ := bind_eq_ok.mp hrun
  obtain ⟨hparameters, hrun⟩ := Prod.mk.inj (pure_eq_ok.mp hrun)
  obtain ⟨hunbound, hkeys⟩ := Prod.mk.inj hrun
  have hmakes := Makes.query Bank.mapper_resolved hq hst
  rw [hparameters] at hmakes
  exact ⟨q, st, hq, hst, hunbound, hkeys, hmakes.binds_reliable Bank.mapper_resolved bs⟩

end Mapper

end GraphMapper
