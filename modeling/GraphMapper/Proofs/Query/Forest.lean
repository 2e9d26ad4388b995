import GraphMapper.Proofs.Mapper
import GraphMapper.Proofs.Query.Stages

/-!
# Traversals as a forest

A traversal starts at the root document or at what an earlier one reaches, and no relation is followed
twice from one scope: the traversals of a query are a forest under its root (`Query.IsForest`). All of
it is what a stage needs in order to be added to a draft, read off at the draft that ends before the
stage (`Draft.Built.admits_of_split`).

A run of operations ends with the error of the first one that fails (`Mapper.query_eq_error_iff`).
-/

namespace GraphMapper

open Outcome

/-! ## Forests -/

/-- The entity at a scope when these traversals are there: that of the root document, or the one that a
traversal leads to. -/
def Scope.entity? (root : String) (ts : List Traversal) : Scope → Option String
  | .root => some root
  | .traversal index => ts[index]?.map (·.target)

/-- The traversals of a query hang together, and its fields are read at them. -/
structure Query.IsForest (m : Mapper) (q : Query) : Prop where
  index : ∀ (k : Nat) (t : Traversal), q.traversals[k]? = some t → t.index = k
  /-- A traversal starts at the root document or at a traversal before it, from the entity there. -/
  start : ∀ (k : Nat) (t : Traversal), q.traversals[k]? = some t →
    t.from.entity? q.entity (q.traversals.take k) = some t.source
  hop : ∀ t ∈ q.traversals, ∃ hop, m.topology.hop t.source t.relationship = .ok hop ∧
    t.target = hop.target ∧ t.direction = hop.direction
  depth : ∀ t ∈ q.traversals, 1 ≤ t.depth ∧ t.depth ≤ m.settings.maxTraversalDepth
  nodup : (q.traversals.map fun t => (t.from, t.relationship)).Nodup
  /-- A field is read at the root document or at a traversal before its stage. -/
  fields : ∀ before s after, q.stages = before ++ s :: after → ∀ f ∈ s.fields,
    f.scope.entity? q.entity (before.filterMap Stage.traversal?) = some f.entity
  /-- Whole documents are read by projections alone. -/
  attributes : ∀ s ∈ q.stages, (∀ fields, s ≠ .project fields) →
    ∀ f ∈ s.fields, f.attribute?.isSome = true

namespace Draft

variable {m : Mapper} {d : Draft}

/-! ## The draft before a stage -/

/-- The draft that ends before a stage admits the stage. -/
theorem Built.admits_of_split (h : Built m d) {before after : List Stage} {s : Stage}
    (heq : d.stages = before ++ s :: after) :
    Built m { d with stages := before } ∧ ({ d with stages := before } : Draft).Admits m s := by
  induction h generalizing after with
  | start => simp at heq
  | @add d last hd hlast ih =>
    rw [stages_add] at heq
    rcases List.eq_nil_or_concat after with rfl | ⟨others, other, rfl⟩
    · obtain ⟨rfl, hs⟩ := List.append_inj' heq rfl
      obtain rfl := List.singleton_inj.mp hs
      exact ⟨hd, hlast⟩
    · rw [List.concat_eq_append, ← List.cons_append, ← List.append_assoc] at heq
      obtain ⟨hstages, -⟩ := List.append_inj' heq rfl
      exact ih hstages

/-- The number of a traversal is its place. -/
theorem Built.index_eq (h : Built m d) {k : Nat} {t : Traversal} (ht : d.traversals[k]? = some t) :
    t.index = k := by
  have hlt : k < d.traversals.length := (List.getElem?_eq_some_iff.mp ht).1
  have hindex : (d.traversals.map (·.index))[k]? = some t.index := by
    rw [List.getElem?_map, ht, Option.map_some]
  rw [h.map_index, List.getElem?_range hlt] at hindex
  exact (Option.some.inj hindex).symm

theorem Built.entity?_of_at (h : Built m d) {scope : Scope} {entity : String}
    (hat : d.At scope entity) : scope.entity? d.entity d.traversals = some entity := by
  cases scope with
  | root => exact congrArg some hat.symm
  | traversal index =>
    obtain ⟨t, ht, rfl, rfl⟩ := hat
    obtain ⟨k, hk⟩ := List.getElem?_of_mem ht
    rw [Scope.entity?, h.index_eq hk, hk, Option.map_some]

/-- A traversal was admitted by a draft that had the traversals before it. -/
theorem Built.admits_traversal (h : Built m d) {k : Nat} {t : Traversal}
    (ht : d.traversals[k]? = some t) : ∃ d₀, Built m d₀ ∧ d₀.entity = d.entity ∧
      d₀.traversals = d.traversals.take k ∧ d₀.Admits m (.traverse t) := by
  obtain ⟨s, hs, hst⟩ := List.mem_filterMap.mp (List.mem_of_getElem? ht)
  obtain rfl : s = .traverse t := by
    cases s with
    | traverse t' => exact congrArg Stage.traverse (Option.some.inj hst)
    | _ => cases hst
  obtain ⟨before, after, heq⟩ := List.append_of_mem hs
  obtain ⟨hbuilt, hadmits⟩ := h.admits_of_split heq
  refine ⟨_, hbuilt, rfl, ?_, hadmits⟩
  have hprefix : before.filterMap Stage.traversal? <+: d.traversals := by
    have hstages : d.query.stages = before ++ .traverse t :: after := heq
    rw [traversals, Query.traversals, hstages, List.filterMap_append]
    exact List.prefix_append _ _
  -- the number of a traversal counts those of the draft that has admitted it
  have hlength : (before.filterMap Stage.traversal?).length = k :=
    (hadmits.index rfl).symm.trans (h.index_eq ht)
  exact hlength ▸ List.prefix_iff_eq_take.mp hprefix

/-- A relation is traversed once from each scope. -/
theorem Built.traversals_nodup (h : Built m d) :
    (d.traversals.map fun t => (t.from, t.relationship)).Nodup := by
  induction h with
  | start => exact List.nodup_nil
  | @add d s _ hs ih =>
    rw [traversals_add, List.map_append, List.nodup_append]
    refine ⟨ih, ?_, ?_⟩
    · cases s.traversal? <;> simp
    · rintro pair hpair _ hnew rfl
      cases hs with
      | traverse _ _ hfresh =>
        obtain ⟨t, ht, rfl⟩ := List.mem_map.mp hpair
        obtain ⟨hfrom, hrelationship⟩ : t.from = _ ∧ t.relationship = _ := by
          simpa [Stage.traversal?] using hnew
        exact hfresh t ht ⟨hfrom, hrelationship⟩
      | _ => simp [Stage.traversal?] at hnew

theorem one_le_of_ne_zero {depth : UInt32} (h : depth ≠ 0) : 1 ≤ depth := by
  have hnat : depth.toNat ≠ 0 := fun hzero => h (UInt32.toNat_inj.mp hzero)
  exact UInt32.le_iff_toNat_le.mpr (Nat.one_le_iff_ne_zero.mpr hnat)

/-- What is read by a stage that can be added is there. -/
theorem Admits.fields {s : Stage} (h : d.Admits m s) : ∀ f ∈ s.fields, d.Reads f := by
  cases h with
  | filter hreads => exact fun f hf => (hreads f hf).1
  | project hreads => exact hreads
  | order hreads => exact fun f hf => (hreads f hf).1
  | aggregate hfield hgroups =>
    refine List.forall_mem_append.mpr ⟨fun f hf => (hgroups f hf).1, ?_⟩
    exact List.forall_mem_singleton.mpr hfield.1
  | _ => simp [Stage.fields, Stage.laterFields]

/-- A stage that can be added reads attributes, unless it projects. -/
theorem Admits.attributes {s : Stage} (h : d.Admits m s) (hs : ∀ fields, s ≠ .project fields) :
    ∀ f ∈ s.fields, f.attribute?.isSome = true := by
  cases h with
  | filter hreads => exact fun f hf => (hreads f hf).2
  | project => exact absurd rfl (hs _)
  | order hreads => exact fun f hf => (hreads f hf).2
  | aggregate hfield hgroups =>
    refine List.forall_mem_append.mpr ⟨fun f hf => (hgroups f hf).2, ?_⟩
    exact List.forall_mem_singleton.mpr hfield.2
  | _ => simp [Stage.fields, Stage.laterFields]

/-! ## The forest of a draft -/

theorem Built.isForest (h : Built m d) : d.query.IsForest m := by
  constructor
  case index => exact fun k t => h.index_eq
  case start =>
    intro k t ht
    obtain ⟨d₀, hd₀, hentity, htraversals, hadmits⟩ := h.admits_traversal ht
    cases hadmits with
    | traverse hat =>
      have hstart := hd₀.entity?_of_at hat
      rwa [hentity, htraversals] at hstart
  case hop =>
    intro t ht
    obtain ⟨k, hk⟩ := List.getElem?_of_mem ht
    obtain ⟨d₀, -, -, -, hadmits⟩ := h.admits_traversal hk
    cases hadmits with
    | traverse _ hhop => exact ⟨_, hhop, rfl, rfl⟩
  case depth =>
    intro t ht
    obtain ⟨k, hk⟩ := List.getElem?_of_mem ht
    obtain ⟨d₀, -, -, -, hadmits⟩ := h.admits_traversal hk
    cases hadmits with
    | traverse _ _ _ hzero hmax => exact ⟨one_le_of_ne_zero hzero, hmax⟩
  case nodup => exact h.traversals_nodup
  case fields =>
    intro before s after heq f hf
    obtain ⟨hbuilt, hadmits⟩ := h.admits_of_split heq
    exact hbuilt.entity?_of_at (hadmits.fields f hf)
  case attributes =>
    intro s hs hproject
    obtain ⟨before, after, heq⟩ := List.append_of_mem hs
    obtain ⟨-, hadmits⟩ := h.admits_of_split heq
    exact hadmits.attributes hproject

end Draft

/-! ## Operations that fail -/

theorem Draft.start_eq_error {m : Mapper} {entity : String} {e : Error} :
    Draft.start m entity = .error e ↔ m.schema.lookup entity = .error e := by
  rw [Draft.start, bind_eq_error]
  simp [pure, Except.pure]

/-- A list of operations fails if the entity is unknown, or if one of them fails after those before it
have not, with its error, whatever comes after. -/
theorem Mapper.query_eq_error_iff {m : Mapper} {entity : String} {ops : List Operation} {e : Error} :
    m.query entity ops = .error e ↔ m.schema.lookup entity = .error e ∨
      ∃ done op more d, ops = done ++ op :: more ∧ m.draft entity done = .ok d ∧
        d.apply m op = .error e := by
  rw [query, bind_eq_error, Draft.start_eq_error]
  refine or_congr_right ?_
  constructor
  · rintro ⟨start, hstart, h⟩
    obtain hrun | ⟨d, -, hd⟩ := bind_eq_error.mp h
    · obtain ⟨done, op, more, d, rfl, hdone, hop⟩ := foldlM_eq_error_iff.mp hrun
      exact ⟨done, op, more, d, rfl, bind_eq_ok.mpr ⟨start, hstart, hdone⟩, hop⟩
    · cases hd
  · rintro ⟨done, op, more, d, rfl, hdone, hop⟩
    obtain ⟨start, hstart, hdone⟩ := bind_eq_ok.mp hdone
    have hrun := foldlM_eq_error_iff.mpr ⟨done, op, more, d, rfl, hdone, hop⟩
    exact ⟨start, hstart, bind_eq_error.mpr (Or.inl hrun)⟩

/-! ## Queries -/

/-- The traversals of a built query are a forest under its root, its fields are read at the root or at
earlier traversals, and only projections read whole documents. Operations that fail give the error of
the first one of them that fails, whatever follows it. -/
theorem Mapper.query_isForest (m : Mapper) (entity : String) (ops : List Operation) :
    (∀ q, m.query entity ops = .ok q → q.entity = entity ∧ q.IsForest m) ∧
      ∀ e, m.query entity ops = .error e ↔ m.schema.lookup entity = .error e ∨
        ∃ done op more d, ops = done ++ op :: more ∧ m.draft entity done = .ok d ∧
          d.apply m op = .error e := by
  refine ⟨fun q hq => ?_, fun e => query_eq_error_iff⟩
  obtain ⟨d, hd, rfl, rfl⟩ := query_built hq
  exact ⟨rfl, hd.isForest⟩

/-- Persons by the accounts that they reach in up to three steps and by the owners of these. Sorting by
nothing fails, also when a limit that is as wrong follows. -/
theorem Mapper.query_isForest_owners :
    let ops := [.traverse "accounts" 3, .filter (.any [.compare "accounts.owner.age" .greaterThan
        (.literal (.int 18)), .isNull "age" false]), .project ["id", "accounts.owner"]]
    ∃ q, Bank.mapper.query "Person" ops = .ok q ∧ (q.entity = "Person" ∧ q.IsForest Bank.mapper) ∧
      Bank.mapper.query "Person" (ops ++ [.order [] .ascending, .limit 0 (-1)]) =
        .error (.invalidQuery .emptyOrder) := by
  intro ops
  have hquery : (Bank.mapper.query "Person" ops).isOk = true := by decide +kernel
  have hdraft : (Bank.mapper.draft "Person" ops).isOk = true := by decide +kernel
  obtain ⟨q, hq⟩ := exists_of_isOk hquery
  obtain ⟨d, hd⟩ := exists_of_isOk hdraft
  refine ⟨q, hq, (query_isForest Bank.mapper "Person" ops).1 q hq, ?_⟩
  apply ((query_isForest Bank.mapper "Person" _).2 _).mpr
  exact Or.inr ⟨ops, .order [] .ascending, [.limit 0 (-1)], d, rfl, hd, rfl⟩

end GraphMapper
