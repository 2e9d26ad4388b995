import GraphMapper.Proofs.Aql.Scope
import GraphMapper.Proofs.Query.Built
import GraphMapper.Query.Matching

/-!
# Stages in order

The stages of a draft are in order (`Draft.Built.leads`): a field is read at the root or at a
traversal before its stage, and a traversal has a number of its own. That is kept when the stages
become steps (`Stage.leads_steps`), and also when the filters on the root are taken out of them, since
these bind nothing.
-/

namespace GraphMapper

open Outcome Aql

/-! ## Variables of stages -/

namespace Stage

/-- The fields that a stage reads. -/
def fields : Stage → List FieldPath
  | filter p => p.fields
  | s => s.laterFields

/-- The variable that a stage binds. -/
def binds (s : Stage) : List Var := s.traversal?.toList.map fun t => .step t.index

def after (visible : List Var) (s : Stage) : List Var := visible ++ s.binds

/-- The stage is in order when these variables are visible. -/
structure Scoped (visible : List Var) (s : Stage) : Prop where
  fields : ∀ f ∈ s.fields, f.scope.var ∈ visible
  start : ∀ t, s.traversal? = some t → t.from.var ∈ visible
  binds : ∀ v ∈ s.binds, v ∉ visible

section

variable {visible : List Var} {s : Stage} (hs : s.traversal? = none)
include hs

/-- A stage that is no traversal leaves the visible variables as they are. -/
theorem after_eq : s.after visible = visible := by
  simp [after, binds, hs]

theorem Scoped.of_fields (h : ∀ f ∈ s.fields, f.scope.var ∈ visible) : s.Scoped visible := by
  refine ⟨h, ?_, ?_⟩
  · simp [hs]
  · simp [Stage.binds, hs]

end

end Stage

namespace Draft

variable {m : Mapper} {d : Draft}

/-- The variables of the scopes of a draft. -/
def visible (d : Draft) : List Var := .doc :: d.traversals.map fun t => .step t.index

theorem At.var_mem {scope : Scope} {entity : String} (h : d.At scope entity) :
    scope.var ∈ d.visible := by
  cases scope with
  | root => exact List.mem_cons_self
  | traversal index =>
    obtain ⟨t, ht, rfl, -⟩ := h
    exact List.mem_cons_of_mem _ (List.mem_map_of_mem ht)

/-- A stage that a draft admits is in order at its end. -/
theorem Admits.scoped (hd : Built m d) {s : Stage} (h : d.Admits m s) : s.Scoped d.visible := by
  cases h with
  | @traverse hop scope source relationship depth hat =>
    refine ⟨by simp [Stage.fields, Stage.laterFields], ?_, ?_⟩
    · intro t ht
      obtain rfl := Option.some.inj ht
      exact hat.var_mem
    · intro v hv
      obtain rfl : v = .step d.traversals.length := by simpa [Stage.binds, Stage.traversal?] using hv
      -- the traversals of the draft have the numbers below its own
      intro hmem
      obtain hmem | hmem := List.mem_cons.mp hmem
      · cases hmem
      · obtain ⟨t, ht, heq⟩ := List.mem_map.mp hmem
        have hindex : t.index ∈ d.traversals.map (·.index) := List.mem_map_of_mem ht
        rw [hd.map_index, Var.step.inj heq] at hindex
        exact List.not_mem_range_self hindex
  | filter hreads => exact .of_fields rfl fun f hf => (hreads f hf).1.var_mem
  | project hreads => exact .of_fields rfl fun f hf => (hreads f hf).var_mem
  | order hreads => exact .of_fields rfl fun f hf => (hreads f hf).1.var_mem
  | aggregate hfield hgroups =>
    apply Stage.Scoped.of_fields rfl
    intro f hf
    rcases List.mem_append.mp hf with hf | hf
    · exact (hgroups f hf).1.var_mem
    · exact (List.mem_singleton.mp hf ▸ hfield).1.var_mem
  | _ => exact .of_fields rfl (by simp [Stage.fields, Stage.laterFields])

/-- The stages of a draft are in order. -/
theorem Built.leads (h : Built m d) : Leads Stage.Scoped Stage.after [.doc] d.stages d.visible := by
  induction h with
  | start => exact .nil
  | @add d s hd hs ih =>
    have hafter : (d.add s).visible = s.after d.visible := by
      simp [visible, Stage.after, Stage.binds]
    exact hafter ▸ ih.append (.single (hs.scoped hd))

end Draft

/-! ## Stages as steps -/

theorem Scope.var_cases (scope : Scope) : scope.var = .doc ∨ ∃ n, scope.var = .step n := by
  cases scope with
  | root => exact Or.inl rfl
  | traversal index => exact Or.inr ⟨index, rfl⟩

namespace Predicate

theorem reads_comparison (comparison : Comparison) (f : FieldPath) (slot : Slot) :
    (comparison.test f slot).reads = [f.scope.var] := by
  cases comparison with
  | contains =>
    unfold Comparison.test
    dsimp only
    split <;> rfl
  | _ => rfl

mutual
/-- The condition of a predicate reads the variables of its fields. -/
theorem reads_test (next : Nat) : (p : Predicate) →
    (p.test next).reads = p.fields.map fun f => f.scope.var
  | .compare f comparison _ => reads_comparison comparison f _
  | .isNull _ _ => rfl
  | .all members => reads_memberTests next members
  | .any members => reads_memberTests next members
  | .not member => reads_test next member
theorem reads_memberTests (next : Nat) : (ps : List Predicate) →
    Test.memberReads (memberTests next ps) = (memberFields ps).map fun f => f.scope.var
  | [] => rfl
  | p :: rest => by
    rw [memberTests, Test.memberReads, reads_test next p, reads_memberTests _ rest, memberFields,
      List.map_append]
end

end Predicate

namespace Stage

variable {topology : Topology} {stages : List Stage} {visible visible' : List Var}

/-- The steps of stages in order are in order. -/
theorem leads_steps (h : Leads Scoped after visible stages visible') {next : Nat}
    {made : List Step} (hmade : steps topology next stages = .ok made) :
    Leads Step.Scoped Step.after visible made visible' := by
  induction h generalizing next made with
  | nil =>
    obtain rfl := Except.ok.inj hmade
    exact .nil
  | @cons visible visible' s rest hs _ ih =>
    -- what is no step binds nothing
    have hskipped : s.traversal? = none → ∀ next, steps topology next rest = .ok made →
        Leads Step.Scoped Step.after visible made visible' := by
      intro hnone next hrest
      have hafter : s.after visible = visible := after_eq hnone
      exact hafter ▸ ih hrest
    cases s with
    | filter p =>
      obtain ⟨others, hothers, hmade⟩ := bind_eq_ok.mp hmade
      obtain rfl := pure_eq_ok.mp hmade
      refine .cons ⟨?_, by simp [Step.binds], trivial⟩ (ih hothers)
      intro v hv
      rw [Step.reads, Predicate.reads_test] at hv
      obtain ⟨f, hf, rfl⟩ := List.mem_map.mp hv
      exact hs.fields f hf
    | traverse t =>
      obtain ⟨step, hstep, hmade⟩ := bind_eq_ok.mp hmade
      obtain ⟨others, hothers, hmade⟩ := bind_eq_ok.mp hmade
      obtain rfl := pure_eq_ok.mp hmade
      obtain ⟨hop, -, hstep⟩ := bind_eq_ok.mp hstep
      obtain rfl := pure_eq_ok.mp hstep
      refine .cons ⟨?_, hs.binds, t.from.var_cases⟩ (ih hothers)
      intro v hv
      obtain rfl := List.mem_singleton.mp hv
      exact hs.start t rfl
    | _ => exact hskipped rfl next hmade

/-- Without the filters on the root the other stages are still in order. -/
theorem leads_others (h : Leads Scoped after visible stages visible') :
    Leads Scoped after visible (stages.filter (!·.isRootFilter)) visible' := by
  induction h with
  | nil => exact .nil
  | @cons visible visible' s rest hs _ ih =>
    cases hroot : s.isRootFilter with
    | false =>
      rw [List.filter_cons_of_pos (by simp [hroot])]
      exact .cons hs ih
    | true =>
      rw [List.filter_cons_of_neg (by simp [hroot])]
      cases s with
      | filter p =>
        have hafter : (filter p).after visible = visible := after_eq rfl
        exact hafter ▸ ih
      | _ => simp [isRootFilter] at hroot

/-- Filters on the root are in order wherever the root is visible, and bind nothing. -/
theorem leads_rootFilters (h : ∀ s ∈ stages, s.isRootFilter = true) (hdoc : .doc ∈ visible) :
    Leads Scoped after visible stages visible := by
  induction stages with
  | nil => exact .nil
  | cons s rest ih =>
    obtain ⟨hs, hrest⟩ := List.forall_mem_cons.mp h
    cases s with
    | filter p =>
      have hscoped : (filter p).Scoped visible := by
        apply Scoped.of_fields rfl
        intro f hf
        rw [Predicate.scope_of_rootOnly p hs f hf]
        exact hdoc
      have hafter : (filter p).after visible = visible := after_eq rfl
      exact .cons hscoped (hafter.symm ▸ ih hrest)
    | _ => simp [isRootFilter] at hs

/-- What a stage reads is visible after all of them. -/
theorem fields_of_leads (h : Leads Scoped after visible stages visible') {s : Stage}
    (hs : s ∈ stages) {f : FieldPath} (hf : f ∈ s.fields) : f.scope.var ∈ visible' := by
  have hgrow : ∀ visible (s : Stage), ∀ v ∈ visible, v ∈ s.after visible :=
    fun _ _ _ => List.mem_append_left _
  induction h with
  | nil => cases hs
  | cons hok hrest ih =>
    rw [List.mem_cons] at hs
    rcases hs with rfl | hs
    · exact hrest.mem hgrow (hgrow _ _ _ (hok.fields f hf))
    · exact ih hs

theorem laterFields_subset (s : Stage) {f : FieldPath} (hf : f ∈ s.laterFields) : f ∈ s.fields := by
  cases s with
  | filter p => cases hf
  | _ => exact hf

end Stage

end GraphMapper
