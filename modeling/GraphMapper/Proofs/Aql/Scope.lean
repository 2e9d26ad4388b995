import GraphMapper.Aql.Syntax
import Mathlib.Data.List.Nodup

/-!
# Scopes of a reading statement

A clause reads variables that are visible before it and binds new ones that are visible after it. The
steps of a first match bind their variables for each other and for its columns, and nothing of them
is visible outside; a collection of groups leaves nothing but its own variables.

`Leads` carries the visible variables through a sequence, be it of steps, of clauses or of the stages
that they are made of. `ScopedLoop` says that every variable of a statement is read where it is
visible and that nothing visible is bound again, and what follows for a first match and for groups.
-/

namespace GraphMapper.Aql

/-! ## Sequences -/

/-- Each part of a sequence is in order when the variables after those before it are visible;
`visible'` are the variables after all of them. -/
inductive Leads {α : Type} (ok : List Var → α → Prop) (after : List Var → α → List Var) :
    List Var → List α → List Var → Prop
  | nil {visible : List Var} : Leads ok after visible [] visible
  | cons {visible visible' : List Var} {a : α} {rest : List α} : ok visible a →
      Leads ok after (after visible a) rest visible' → Leads ok after visible (a :: rest) visible'

namespace Leads

variable {α : Type} {ok : List Var → α → Prop} {after : List Var → α → List Var}
  {visible visible' visible'' : List Var} {first rest : List α}

theorem append (h : Leads ok after visible first visible')
    (h' : Leads ok after visible' rest visible'') :
    Leads ok after visible (first ++ rest) visible'' := by
  induction h with
  | nil => exact h'
  | cons hok _ ih => exact .cons hok (ih h')

theorem single {a : α} (h : ok visible a) : Leads ok after visible [a] (after visible a) :=
  .cons h .nil

/-- A part is in order when the variables after the parts before it are visible. -/
theorem foldl_after {a : α} (h : Leads ok after visible (first ++ a :: rest) visible') :
    ok (first.foldl after visible) a := by
  induction first generalizing visible with
  | nil =>
    cases h with
    | cons hok _ => exact hok
  | cons b first ih =>
    cases h with
    | cons _ hrest => exact ih hrest

/-- What is visible stays visible, when no part takes anything away. -/
theorem mem (hafter : ∀ visible a, ∀ v ∈ visible, v ∈ after visible a)
    (h : Leads ok after visible first visible') {v : Var} (hv : v ∈ visible) : v ∈ visible' := by
  induction h with
  | nil => exact hv
  | cons _ _ ih => exact ih (hafter _ _ v hv)

/-- Parts that are in order as well when they are taken for something else. -/
theorem map {β : Type} {ok' : List Var → β → Prop} {after' : List Var → β → List Var} {f : α → β}
    (hok : ∀ visible a, ok visible a → ok' visible (f a))
    (hafter : ∀ visible a, after' visible (f a) = after visible a)
    (h : Leads ok after visible first visible') :
    Leads ok' after' visible (first.map f) visible' := by
  induction h with
  | nil => exact .nil
  | cons ha _ ih => exact .cons (hok _ _ ha) (hafter _ _ ▸ ih)

end Leads

/-! ## Variables that are read -/

/-- The variable of an expression; a column is read from the first match. -/
def Expr.var : Expr → Var
  | field v _ => v
  | column _ => .hit

namespace Test

mutual
def reads : Test → List Var
  | relation left _ _ => [left.var]
  | memberOf field _ => [field.var]
  | hasMember field _ => [field.var]
  | contains field _ => [field.var]
  | startsWith field _ => [field.var]
  | isNull field _ => [field.var]
  | all members => memberReads members
  | any members => memberReads members
  | not member => member.reads
def memberReads : List Test → List Var
  | [] => []
  | t :: rest => t.reads ++ memberReads rest
end

end Test

/-! ## Steps -/

namespace Step

def reads : Step → List Var
  | filter test => test.reads
  | traverse _ _ start _ => [start]

def binds : Step → List Var
  | filter _ => []
  | traverse index _ _ _ => [.step index]

def after (visible : List Var) (s : Step) : List Var := visible ++ s.binds

/-- What a loop over edges may start at: the root document, or one that a loop has reached. -/
def StartsAtDocument : Step → Prop
  | filter _ => True
  | traverse _ _ start _ => start = .doc ∨ ∃ n, start = .step n

/-- The step is in order when these variables are visible. -/
structure Scoped (visible : List Var) (s : Step) : Prop where
  reads : ∀ v ∈ s.reads, v ∈ visible
  binds : ∀ v ∈ s.binds, v ∉ visible
  start : s.StartsAtDocument

variable {visible visible' : List Var} {steps : List Step}

/-- What steps bind is visible after all of them and not before. -/
theorem binds_of_leads (h : Leads Scoped after visible steps visible') {s : Step} (hs : s ∈ steps)
    {v : Var} (hv : v ∈ s.binds) : v ∈ visible' ∧ v ∉ visible := by
  have hgrow : ∀ visible s, ∀ v ∈ visible, v ∈ after visible s :=
    fun _ _ _ => List.mem_append_left _
  induction h with
  | nil => cases hs
  | cons hok hrest ih =>
    rw [List.mem_cons] at hs
    rcases hs with rfl | hs
    · exact ⟨hrest.mem hgrow (List.mem_append_right _ hv), hok.binds v hv⟩
    · obtain ⟨hafter, hbefore⟩ := ih hs
      exact ⟨hafter, fun hmem => hbefore (hgrow _ _ v hmem)⟩

end Step

/-! ## Clauses -/

namespace Clause

/-- The variables that a clause reads, apart from those inside a first match. -/
def reads : Clause → List Var
  | step s => s.reads
  | firstMatch _ _ => []
  | neighbours _ _ _ => [.doc]
  | collect groups totals => groups.map Expr.var ++ totals.map fun t => t.2.var
  | sort keys => keys.map fun k => k.1.var
  | limit _ _ => []

/-- The variables that a clause binds for those after it. -/
def binds : Clause → List Var
  | step s => s.binds
  | firstMatch _ _ => [.hit]
  | neighbours index _ _ => [.included index]
  | collect groups totals =>
    (List.range groups.length).map .group ++ (List.range totals.length).map .total
  | sort _ => []
  | limit _ _ => []

/-- The variables that are visible after a clause. -/
def after (visible : List Var) : Clause → List Var
  | collect groups totals => (collect groups totals).binds
  | c => visible ++ c.binds

/-- What a clause reads and binds inside of it is in order. -/
def InnerScoped (visible : List Var) : Clause → Prop
  | step s => s.StartsAtDocument
  | firstMatch steps columns => ∃ visible', Leads Step.Scoped Step.after visible steps visible' ∧
    ∀ e ∈ columns, e.var ∈ visible'
  | neighbours index _ _ => .neighbour index ∉ visible
  | _ => True

/-- The clause is in order when these variables are visible. -/
structure Scoped (visible : List Var) (c : Clause) : Prop where
  reads : ∀ v ∈ c.reads, v ∈ visible
  binds : ∀ v ∈ c.binds, v ∉ visible
  nodup : c.binds.Nodup
  inner : c.InnerScoped visible

/-- Steps as clauses are in order when the steps are. -/
theorem leads_steps {visible visible' : List Var} {steps : List Step}
    (h : Leads Step.Scoped Step.after visible steps visible') :
    Leads Scoped after visible (steps.map step) visible' := by
  refine h.map (fun visible s hs => ⟨hs.reads, hs.binds, ?_, hs.start⟩) fun _ _ => rfl
  cases s <;> simp [binds, Step.binds]

end Clause

/-! ## Statements -/

/-- The variables that a result reads. -/
def Result.reads : Result → List Var
  | document => [.doc]
  | merged entries => .doc :: entries.map fun e => e.2.var
  | object entries => entries.map fun e => e.2.var

/-- A loop over root documents whose variables are in order. -/
structure ScopedLoop (clauses : List Clause) (result : Result) : Prop where
  /-- Whatever is read is visible there, and whatever is bound is not. -/
  inScope : ∃ visible, Leads Clause.Scoped Clause.after [.doc] clauses visible ∧
    ∀ v ∈ result.reads, v ∈ visible
  /-- With a first match, what loops reach is read inside of it only. -/
  separated : ∀ steps columns, .firstMatch steps columns ∈ clauses →
    ∀ n, (∀ c ∈ clauses, .step n ∉ c.reads) ∧ .step n ∉ result.reads
  /-- After groups and totals have been made, nothing else is read. -/
  grouped : ∀ before groups totals rest, clauses = before ++ .collect groups totals :: rest →
    (∀ c ∈ rest, ∀ v ∈ c.reads, v ∈ (Clause.collect groups totals).binds) ∧
      ∀ v ∈ result.reads, v ∈ (Clause.collect groups totals).binds

namespace Clause

variable {visible visible' : List Var} {clauses rest : List Clause}

/-- A variable that no clause binds is read by none. -/
theorem not_reads_of_leads (h : Leads Scoped after visible clauses visible') {v : Var}
    (hv : v ∉ visible) (hbinds : ∀ c ∈ clauses, v ∉ c.binds) :
    (∀ c ∈ clauses, v ∉ c.reads) ∧ v ∉ visible' := by
  induction h with
  | nil => exact ⟨by simp, hv⟩
  | @cons visible visible' c rest hc _ ih =>
    obtain ⟨hfirst, hrest⟩ := List.forall_mem_cons.mp hbinds
    -- groups and totals leave nothing else visible, other clauses add what they bind
    have hafter : v ∉ c.after visible := by
      cases c with
      | collect groups totals => exact hfirst
      | _ => exact fun hmem => (List.mem_append.mp hmem).elim hv hfirst
    obtain ⟨hreads, hleft⟩ := ih hafter hrest
    exact ⟨List.forall_mem_cons.mpr ⟨fun hread => hv (hc.reads v hread), hreads⟩, hleft⟩

/-- When nothing is bound after groups and totals, nothing but them is read. -/
theorem reads_of_leads_collect {before : List Clause} {groups : List Expr}
    {totals : List (Function × Expr)}
    (h : Leads Scoped after visible (before ++ .collect groups totals :: rest) visible')
    (hbinds : ∀ c ∈ rest, c.binds = []) :
    (∀ c ∈ rest, ∀ v ∈ c.reads, v ∈ (collect groups totals).binds) ∧
      ∀ v ∈ visible', v ∈ (collect groups totals).binds := by
  induction before generalizing visible with
  | nil =>
    obtain _ | ⟨-, hrest⟩ := h
    have hnone : ∀ v, v ∉ (collect groups totals).binds →
        (∀ c ∈ rest, v ∉ c.reads) ∧ v ∉ visible' := fun v hv =>
      not_reads_of_leads hrest hv fun c hc => by simp [hbinds c hc]
    constructor
    · intro c hc v hread
      by_contra hv
      exact (hnone v hv).1 c hc hread
    · intro v hleft
      by_contra hv
      exact (hnone v hv).2 hleft
  | cons c before ih =>
    obtain _ | ⟨-, hrest⟩ := h
    exact ih hrest

end Clause

end GraphMapper.Aql
