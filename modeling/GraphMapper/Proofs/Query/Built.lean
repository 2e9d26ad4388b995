import GraphMapper.Proofs.Outcome
import GraphMapper.Query.Draft
import GraphMapper.Query.Filter
import Mathlib.Data.List.Nodup

/-!
# Drafts that operations make

`Draft.Admits` says which stages can be added to a draft, with all that is known of a stage then:
where its fields are read, what its hop is, which names its parameters have. `Draft.Built` are the
drafts that are made by adding such stages, and `Mapper.query_built` shows that operations make
nothing else. What holds of all queries is proved by an induction over `Built`, never by following
the operations.

A field is read at a scope of the draft (`Draft.At`). A path only ever appends traversals of one hop
(`Draft.Grows`), and what could be read before can still be read afterwards.
-/

namespace GraphMapper

open Outcome

/-! ## Fields of predicates -/

namespace Predicate

mutual
/-- The fields that are read, from left to right. -/
def fields : Predicate → List FieldPath
  | compare field _ _ => [field]
  | isNull field _ => [field]
  | all members => memberFields members
  | any members => memberFields members
  | not member => member.fields
def memberFields : List Predicate → List FieldPath
  | [] => []
  | p :: rest => p.fields ++ memberFields rest
end

mutual
/-- A predicate on the root alone has fields of the root alone. -/
theorem scope_of_rootOnly : (p : Predicate) → p.rootOnly = true → ∀ f ∈ p.fields, f.scope = .root
  | .compare f comparison operand, h => by simpa [rootOnly, fields] using h
  | .isNull f negated, h => by simpa [rootOnly, fields] using h
  | .all members, h => scope_of_membersRootOnly members h
  | .any members, h => scope_of_membersRootOnly members h
  | .not member, h => scope_of_rootOnly member h
theorem scope_of_membersRootOnly : (ps : List Predicate) → membersRootOnly ps = true →
    ∀ f ∈ memberFields ps, f.scope = .root
  | [], _ => by simp [memberFields]
  | p :: rest, h => by
    obtain ⟨hp, hrest⟩ := Bool.and_eq_true_iff.mp h
    exact List.forall_mem_append.mpr
      ⟨scope_of_rootOnly p hp, scope_of_membersRootOnly rest hrest⟩
end

end Predicate

namespace Draft

/-! ## Scopes -/

/-- The entity at a scope of a draft. -/
def At (d : Draft) : Scope → String → Prop
  | .root, entity => entity = d.entity
  | .traversal index, entity => ∃ t ∈ d.traversals, t.index = index ∧ t.target = entity

/-- The field is read at a scope of the draft. -/
def Reads (d : Draft) (f : FieldPath) : Prop := d.At f.scope f.entity

/-- The field is an attribute that is read at a scope of the draft. -/
def ReadsScalar (d : Draft) (f : FieldPath) : Prop := d.Reads f ∧ f.attribute?.isSome

@[simp] theorem traversals_add (d : Draft) (s : Stage) :
    (d.add s).traversals = d.traversals ++ s.traversal?.toList := by
  cases h : s.traversal? <;> simp [traversals, query, add, Query.traversals, h]

@[simp] theorem entity_add (d : Draft) (s : Stage) : (d.add s).entity = d.entity := rfl

@[simp] theorem stages_add (d : Draft) (s : Stage) : (d.add s).stages = d.stages ++ [s] := rfl

theorem At.add {d : Draft} {scope : Scope} {entity : String} (h : d.At scope entity) (s : Stage) :
    (d.add s).At scope entity := by
  cases scope with
  | root => exact h
  | traversal index =>
    obtain ⟨t, ht, hindex⟩ := h
    exact ⟨t, by simp [ht], hindex⟩

/-! ## How a draft comes about -/

/-- The stages that operations can add to a draft over a mapper. -/
inductive Admits (m : Mapper) (d : Draft) : Stage → Prop
  | traverse {hop : Hop} {scope : Scope} {source relationship : String} {depth : UInt32} :
      d.At scope source → m.topology.hop source relationship = .ok hop →
      (∀ t ∈ d.traversals, ¬ (t.from = scope ∧ t.relationship = relationship)) →
      depth ≠ 0 → depth ≤ m.settings.maxTraversalDepth →
      Admits m d (.traverse
        ⟨d.traversals.length, scope, source, relationship, hop.target, hop.direction, depth⟩)
  | filter {p : Predicate} : (∀ f ∈ p.fields, d.ReadsScalar f) →
      (∀ name ∈ p.parameters, isParameterName name = true) → Admits m d (.filter p)
  | project {fields : List FieldPath} : (∀ f ∈ fields, d.Reads f) → fields ≠ [] →
      Admits m d (.project fields)
  | order {fields : List FieldPath} {direction : SortDirection} :
      (∀ f ∈ fields, d.ReadsScalar f) → Admits m d (.order fields direction)
  | limit {count offset : Int64} : Admits m d (.limit count offset)
  | aggregate {a : Aggregation} : d.ReadsScalar a.field → (∀ f ∈ a.groupBy, d.ReadsScalar f) →
      Admits m d (.aggregate a)
  | include {hop : Hop} {relationship : String} :
      m.topology.hop d.entity relationship = .ok hop →
      (∀ i ∈ d.query.inclusions, i.relationship ≠ relationship) →
      Admits m d (.include ⟨relationship, hop.target, hop.direction, hop.cardinality⟩)

/-- Drafts over a mapper, stage by stage. -/
inductive Built (m : Mapper) : Draft → Prop
  | start {entity : String} {e : Entity} (lookup : m.schema.lookup entity = .ok e) :
      Built m { entity, collection := e.collectionName }
  | add {d : Draft} {s : Stage} (built : Built m d) (admits : d.Admits m s) : Built m (d.add s)

variable {m : Mapper} {d d' d'' : Draft}

/-- A draft is over the collection of its entity. -/
theorem Built.collection (h : Built m d) :
    ∃ e, m.schema.lookup d.entity = .ok e ∧ e.collectionName = d.collection := by
  induction h with
  | start hlookup => exact ⟨_, hlookup, rfl⟩
  | add _ _ ih => exact ih

/-! ## Traversals of a draft -/

theorem Admits.index {s : Stage} (h : d.Admits m s) {t : Traversal} (ht : s.traversal? = some t) :
    t.index = d.traversals.length := by
  cases h with
  | traverse => exact (Option.some.inj ht) ▸ rfl
  | _ => cases ht

/-- Traversals are numbered in order. -/
theorem Built.map_index (h : Built m d) :
    d.traversals.map (·.index) = List.range d.traversals.length := by
  induction h with
  | start => rfl
  | @add d s _ hs ih =>
    rw [traversals_add]
    cases ht : s.traversal? with
    | none => simpa using ih
    | some t => simp [ih, hs.index ht, List.range_succ]

/-- A traversal starts at a scope of the draft, and the topology has its hop. -/
theorem Built.traversal (h : Built m d) {t : Traversal} (ht : t ∈ d.traversals) :
    d.At t.from t.source ∧ ∃ hop, m.topology.hop t.source t.relationship = .ok hop ∧
      t.target = hop.target := by
  induction h with
  | start => cases ht
  | @add d s _ hs ih =>
    rw [traversals_add, List.mem_append] at ht
    rcases ht with ht | ht
    · obtain ⟨hat, hhop⟩ := ih ht
      exact ⟨hat.add s, hhop⟩
    · cases hs with
      | @traverse hop scope source relationship depth hat hhop =>
        obtain rfl : t = _ := by simpa [Stage.traversal?] using ht
        exact ⟨hat.add _, hop, hhop, rfl⟩
      | _ => simp [Stage.traversal?] at ht

/-- There is one entity at a scope. -/
theorem Built.at_unique (h : Built m d) {scope : Scope} {entity entity' : String}
    (he : d.At scope entity) (he' : d.At scope entity') : entity = entity' := by
  cases scope with
  | root => exact he.trans he'.symm
  | traversal index =>
    obtain ⟨t, ht, rfl, rfl⟩ := he
    obtain ⟨t', ht', hindex, rfl⟩ := he'
    have hnodup : (d.traversals.map (·.index)).Nodup := h.map_index ▸ List.nodup_range
    rw [List.inj_on_of_nodup_map hnodup ht' ht hindex]

/-! ## Growing -/

/-- The draft has got some traversals of one hop more. -/
structure Grows (m : Mapper) (d d' : Draft) : Prop where
  built : Built m d'
  entity : d'.entity = d.entity
  stages : ∃ ts : List Traversal, d'.stages = d.stages ++ ts.map .traverse ∧ ∀ t ∈ ts, t.depth = 1

theorem Grows.refl (h : Built m d) : Grows m d d := ⟨h, rfl, [], by simp⟩

theorem Grows.trans (h : Grows m d d') (h' : Grows m d' d'') : Grows m d d'' := by
  obtain ⟨ts, hstages, hdepth⟩ := h.stages
  obtain ⟨us, hstages', hdepth'⟩ := h'.stages
  refine ⟨h'.built, h'.entity.trans h.entity, ts ++ us, by simp [hstages, hstages'], ?_⟩
  exact List.forall_mem_append.mpr ⟨hdepth, hdepth'⟩

theorem Grows.traversals_isPrefix (h : Grows m d d') : d.traversals <+: d'.traversals := by
  obtain ⟨ts, hstages, -⟩ := h.stages
  rw [traversals, traversals, Query.traversals, Query.traversals, query, query, hstages,
    List.filterMap_append]
  exact List.prefix_append _ _

theorem Grows.at_of_at (h : Grows m d d') {scope : Scope} {entity : String}
    (hat : d.At scope entity) : d'.At scope entity := by
  cases scope with
  | root => exact hat.trans h.entity.symm
  | traversal index =>
    obtain ⟨t, ht, hindex⟩ := hat
    exact ⟨t, h.traversals_isPrefix.subset ht, hindex⟩

theorem Grows.reads {f : FieldPath} (h : Grows m d d') (hf : d.Reads f) : d'.Reads f :=
  h.at_of_at hf

theorem Grows.readsScalar {f : FieldPath} (h : Grows m d d') (hf : d.ReadsScalar f) :
    d'.ReadsScalar f :=
  ⟨h.reads hf.1, hf.2⟩

/-! ## Following relations -/

/-- A relation leads to the traversal that is there for it, or to one that the draft gets. -/
theorem follow_eq_ok {scope scope' : Scope} {source relationship target : String}
    {depth : Option UInt32}
    (h : follow m d scope source relationship depth = .ok (scope', target, d')) :
    ∃ hop, m.topology.hop source relationship = .ok hop ∧ target = hop.target ∧
      ((∃ t ∈ d.traversals, t.from = scope ∧ t.relationship = relationship ∧
          scope' = .traversal t.index ∧ d' = d) ∨
        (∀ t ∈ d.traversals, ¬ (t.from = scope ∧ t.relationship = relationship)) ∧
          depth.getD 1 ≠ 0 ∧ depth.getD 1 ≤ m.settings.maxTraversalDepth ∧
          scope' = .traversal d.traversals.length ∧
          d' = d.add (.traverse ⟨d.traversals.length, scope, source, relationship, hop.target,
            hop.direction, depth.getD 1⟩)) := by
  unfold follow at h
  obtain ⟨hop, hhop, h⟩ := bind_eq_ok.mp h
  refine ⟨hop, hhop, ?_⟩
  split at h
  · next existing hfound =>
    have hmem := List.mem_of_find?_eq_some hfound
    obtain ⟨hfrom, hrelationship⟩ : existing.from = scope ∧
        existing.relationship = relationship := by
      simpa using List.find?_some hfound
    have heq : (Scope.traversal existing.index, hop.target, d) = (scope', target, d') := by
      split at h
      · split at h
        · exact pure_eq_ok.mp h
        · cases h
      · exact pure_eq_ok.mp h
    obtain ⟨rfl, rfl, rfl⟩ := heq
    exact ⟨rfl, Or.inl ⟨existing, hmem, hfrom, hrelationship, rfl, rfl⟩⟩
  · next hnone =>
    dsimp only at h
    obtain ⟨hzero, h⟩ := guard_eq_ok.mp h
    obtain ⟨hmax, h⟩ := guard_eq_ok.mp h
    obtain ⟨rfl, rfl, rfl⟩ := pure_eq_ok.mp h
    refine ⟨rfl, Or.inr ⟨?_, hzero, UInt32.not_lt.mp hmax, rfl, rfl⟩⟩
    intro t ht
    simpa using List.find?_eq_none.mp hnone t ht

theorem follow_built {scope scope' : Scope} {source relationship target : String}
    {depth : Option UInt32} (hd : Built m d) (hat : d.At scope source)
    (h : follow m d scope source relationship depth = .ok (scope', target, d')) :
    Built m d' ∧ d'.entity = d.entity ∧ d'.At scope' target := by
  obtain ⟨hop, hhop, rfl, hcases⟩ := follow_eq_ok h
  rcases hcases with ⟨t, ht, hfrom, hrelationship, rfl, rfl⟩ | ⟨hfresh, hzero, hmax, rfl, rfl⟩
  · -- the traversal that is there starts at the same entity, so it has the same hop
    obtain ⟨hat', hop', hhop', htarget⟩ := hd.traversal ht
    rw [hfrom] at hat'
    rw [hd.at_unique hat' hat, hrelationship, hhop] at hhop'
    exact ⟨hd, rfl, t, ht, rfl, htarget.trans (by rw [Except.ok.inj hhop'])⟩
  · refine ⟨hd.add (.traverse hat hhop hfresh hzero hmax), rfl, ?_⟩
    exact ⟨⟨d.traversals.length, scope, source, relationship, hop.target, hop.direction,
      depth.getD 1⟩, by simp [Stage.traversal?], rfl, rfl⟩

/-- Where no depth is asked for, a traversal that is new has one hop. -/
theorem follow_grows {scope scope' : Scope} {source relationship target : String}
    (hd : Built m d) (hat : d.At scope source)
    (h : follow m d scope source relationship none = .ok (scope', target, d')) :
    Grows m d d' ∧ d'.At scope' target := by
  obtain ⟨hbuilt, hentity, hat'⟩ := follow_built hd hat h
  refine ⟨⟨hbuilt, hentity, ?_⟩, hat'⟩
  obtain ⟨hop, -, -, hcases⟩ := follow_eq_ok h
  rcases hcases with ⟨t, -, -, -, -, rfl⟩ | ⟨-, -, -, -, rfl⟩
  · exact ⟨[], by simp⟩
  · exact ⟨[⟨d.traversals.length, scope, source, relationship, hop.target, hop.direction, 1⟩],
      by simp⟩

theorem followChain_built {scope : Scope} {entity : String} {depth : UInt32}
    {segments : List String} (hd : Built m d) (hat : d.At scope entity)
    (h : followChain m d scope entity depth segments = .ok d') :
    Built m d' ∧ d'.entity = d.entity := by
  induction segments generalizing d scope entity with
  | nil =>
    obtain rfl := Except.ok.inj h
    exact ⟨hd, rfl⟩
  | cons segment rest ih =>
    obtain ⟨⟨scope', entity', e⟩, hfollow, h⟩ := bind_eq_ok.mp h
    obtain ⟨hbuilt, hentity, hat'⟩ := follow_built hd hat hfollow
    obtain ⟨hbuilt', hentity'⟩ := ih hbuilt hat' h
    exact ⟨hbuilt', hentity'.trans hentity⟩

/-! ## Resolving paths -/

/-- A segment ends a path, spoils it or is followed, in every draft alike. -/
theorem resolveFrom_cons (m : Mapper) (path entity segment : String) (rest : List String) :
    (∃ a, ∀ d scope, resolveFrom m path d scope entity (segment :: rest) =
        .ok (⟨path, scope, entity, some a⟩, d)) ∨
      (∃ failure, ∀ d scope, resolveFrom m path d scope entity (segment :: rest) =
        .error failure) ∨
      ∀ d scope, resolveFrom m path d scope entity (segment :: rest) =
        follow m d scope entity segment none >>= fun x =>
          resolveFrom m path x.2.2 x.1 x.2.1 rest := by
  by_cases hkey : segment = keyField
  · by_cases hrest : rest.isEmpty
    · exact Or.inl ⟨_, fun d scope => by rw [resolveFrom, if_pos hkey, if_pos hrest]⟩
    · exact Or.inr (Or.inl ⟨_, fun d scope => by rw [resolveFrom, if_pos hkey, if_neg hrest]⟩)
  · simp only [resolveFrom, if_neg hkey]
    cases m.schema.lookup entity with
    | error failure => exact Or.inr (Or.inl ⟨failure, fun d scope => rfl⟩)
    | ok e =>
      simp only [bind, Except.bind]
      cases e.attribute? segment with
      | some a =>
        dsimp only
        split
        · exact Or.inl ⟨_, fun d scope => rfl⟩
        · split
          · exact Or.inl ⟨_, fun d scope => rfl⟩
          · exact Or.inr (Or.inl ⟨_, fun d scope => rfl⟩)
      | none =>
        dsimp only
        split
        · exact Or.inr (Or.inl ⟨_, fun d scope => rfl⟩)
        · exact Or.inr (Or.inr fun d scope => rfl)

theorem resolveFrom_reads {path : String} {scope : Scope} {entity : String}
    {segments : List String} {f : FieldPath} (hd : Built m d) (hat : d.At scope entity)
    (h : resolveFrom m path d scope entity segments = .ok (f, d')) :
    Grows m d d' ∧ d'.Reads f := by
  induction segments generalizing d scope entity with
  | nil =>
    obtain ⟨rfl, rfl⟩ := Prod.mk.inj (Except.ok.inj h)
    exact ⟨.refl hd, hat⟩
  | cons segment rest ih =>
    obtain ⟨a, hend⟩ | ⟨failure, hend⟩ | hnext := resolveFrom_cons m path entity segment rest
    · rw [hend] at h
      obtain ⟨rfl, rfl⟩ := Prod.mk.inj (Except.ok.inj h)
      exact ⟨.refl hd, hat⟩
    · rw [hend] at h
      cases h
    · rw [hnext] at h
      obtain ⟨⟨scope', entity', e⟩, hfollow, h⟩ := bind_eq_ok.mp h
      obtain ⟨hgrows, hat'⟩ := follow_grows hd hat hfollow
      obtain ⟨hgrows', hreads⟩ := ih hgrows.built hat' h
      exact ⟨hgrows.trans hgrows', hreads⟩

theorem resolvePath_reads {path : String} {f : FieldPath} (hd : Built m d)
    (h : d.resolvePath m path = .ok (f, d')) : Grows m d d' ∧ d'.Reads f := by
  unfold resolvePath at h
  dsimp only at h
  split at h
  · cases h
  · exact resolveFrom_reads hd (show d.At .root d.entity from rfl) h

/-! ## Fields of operations -/

/-- What holds of a field when its path has been resolved, and goes on to hold in longer drafts. -/
structure Kept (m : Mapper) (P : Draft → FieldPath → Prop) : Prop where
  resolved : ∀ {d d' : Draft} {path : String} {f : FieldPath}, Built m d →
    d.resolvePath m path = .ok (f, d') → P d' f
  grow : ∀ {d d' : Draft} {f : FieldPath}, Built m d → Grows m d d' → P d f → P d' f
  add : ∀ {d : Draft} {f : FieldPath} (s : Stage), Built m d → P d f → P (d.add s) f

theorem kept_reads (m : Mapper) : Kept m Reads :=
  ⟨fun hd h => (resolvePath_reads hd h).2, fun _ hgrows hf => hgrows.reads hf,
    fun s _ hf => At.add hf s⟩

section

variable {P : Draft → FieldPath → Prop} (hP : Kept m P)
include hP

theorem scalarPath_kept {path : String} {f : FieldPath} (hd : Built m d)
    (h : d.scalarPath m path = .ok (f, d')) :
    Grows m d d' ∧ P d' f ∧ f.attribute?.isSome = true := by
  obtain ⟨⟨f', e⟩, hpath, h⟩ := bind_eq_ok.mp h
  obtain ⟨hscalar, h⟩ := guard_eq_ok.mp h
  obtain ⟨rfl, rfl⟩ := Prod.mk.inj (pure_eq_ok.mp h)
  obtain ⟨hgrows, -⟩ := resolvePath_reads hd hpath
  exact ⟨hgrows, hP.resolved hd hpath, Option.isSome_iff_ne_none.mpr (by simpa using hscalar)⟩

/-- Several paths: what holds after the first ones still holds after the last one. -/
theorem scalarPaths_kept {paths : List String} {fields : List FieldPath} (hd : Built m d)
    (h : d.scalarPaths m paths = .ok (fields, d')) :
    Grows m d d' ∧ ∀ f ∈ fields, P d' f ∧ f.attribute?.isSome = true := by
  induction paths generalizing d fields with
  | nil =>
    obtain ⟨rfl, rfl⟩ := Prod.mk.inj (Except.ok.inj h)
    exact ⟨.refl hd, by simp⟩
  | cons path rest ih =>
    obtain ⟨⟨f, e⟩, hpath, h⟩ := bind_eq_ok.mp h
    obtain ⟨⟨fs, e'⟩, hrest, h⟩ := bind_eq_ok.mp h
    obtain ⟨rfl, rfl⟩ := Prod.mk.inj (pure_eq_ok.mp h)
    obtain ⟨hgrows, hf, hscalar⟩ := scalarPath_kept hP hd hpath
    obtain ⟨hgrows', hfields⟩ := ih hgrows.built hrest
    have hf' := hP.grow hgrows.built hgrows' hf
    exact ⟨hgrows.trans hgrows', List.forall_mem_cons.mpr ⟨⟨hf', hscalar⟩, hfields⟩⟩

theorem projectPaths_kept {seen paths : List String} {fields : List FieldPath} (hd : Built m d)
    (h : d.projectPaths m seen paths = .ok (fields, d')) :
    Grows m d d' ∧ ∀ f ∈ fields, P d' f := by
  induction paths generalizing d seen fields with
  | nil =>
    obtain ⟨rfl, rfl⟩ := Prod.mk.inj (Except.ok.inj h)
    exact ⟨.refl hd, by simp⟩
  | cons path rest ih =>
    obtain ⟨⟨f, e⟩, hpath, h⟩ := bind_eq_ok.mp h
    obtain ⟨hgrows, -⟩ := resolvePath_reads hd hpath
    dsimp only at h
    split at h
    · obtain ⟨hgrows', hfields⟩ := ih hgrows.built h
      exact ⟨hgrows.trans hgrows', hfields⟩
    · obtain ⟨⟨fs, e'⟩, hrest, h⟩ := bind_eq_ok.mp h
      obtain ⟨rfl, rfl⟩ := Prod.mk.inj (pure_eq_ok.mp h)
      obtain ⟨hgrows', hfields⟩ := ih hgrows.built hrest
      have hf := hP.grow hgrows.built hgrows' (hP.resolved hd hpath)
      exact ⟨hgrows.trans hgrows', List.forall_mem_cons.mpr ⟨hf, hfields⟩⟩

end

mutual
theorem predicate_kept {P : Draft → FieldPath → Prop} (hP : Kept m P) {c : Condition}
    {p : Predicate} {d d' : Draft} (hd : Built m d) (h : d.predicate m c = .ok (p, d')) :
    Grows m d d' ∧ (∀ f ∈ p.fields, P d' f ∧ f.attribute?.isSome = true) ∧
      ∀ name ∈ p.parameters, isParameterName name = true := by
  cases c with
  | compare path comparison operand =>
    obtain ⟨⟨f, e⟩, hpath, h⟩ := bind_eq_ok.mp h
    obtain ⟨_, hcheck, h⟩ := bind_eq_ok.mp h
    obtain ⟨rfl, rfl⟩ := Prod.mk.inj (pure_eq_ok.mp h)
    obtain ⟨hgrows, hf⟩ := scalarPath_kept hP hd hpath
    refine ⟨hgrows, by simpa [Predicate.fields] using hf, ?_⟩
    cases operand with
    | literal value => simp [Predicate.parameters]
    | parameter name =>
      have hname : isParameterName name = true := by
        by_contra hrefused
        simp [Operand.check, hrefused] at hcheck
      simpa [Predicate.parameters] using hname
  | isNull path negated =>
    obtain ⟨⟨f, e⟩, hpath, h⟩ := bind_eq_ok.mp h
    obtain ⟨rfl, rfl⟩ := Prod.mk.inj (pure_eq_ok.mp h)
    obtain ⟨hgrows, hf⟩ := scalarPath_kept hP hd hpath
    exact ⟨hgrows, by simpa [Predicate.fields] using hf, by simp [Predicate.parameters]⟩
  | all conditions =>
    obtain ⟨-, h⟩ := guard_eq_ok.mp h
    obtain ⟨⟨ps, e⟩, hmembers, h⟩ := bind_eq_ok.mp h
    obtain ⟨rfl, rfl⟩ := Prod.mk.inj (pure_eq_ok.mp h)
    exact predicates_kept hP hd hmembers
  | any conditions =>
    obtain ⟨-, h⟩ := guard_eq_ok.mp h
    obtain ⟨⟨ps, e⟩, hmembers, h⟩ := bind_eq_ok.mp h
    obtain ⟨rfl, rfl⟩ := Prod.mk.inj (pure_eq_ok.mp h)
    exact predicates_kept hP hd hmembers
  | not condition =>
    obtain ⟨⟨p', e⟩, hmember, h⟩ := bind_eq_ok.mp h
    obtain ⟨rfl, rfl⟩ := Prod.mk.inj (pure_eq_ok.mp h)
    have hfields := predicate_kept hP hd hmember
    exact hfields
theorem predicates_kept {P : Draft → FieldPath → Prop} (hP : Kept m P) {cs : List Condition}
    {ps : List Predicate} {d d' : Draft} (hd : Built m d) (h : d.predicates m cs = .ok (ps, d')) :
    Grows m d d' ∧ (∀ f ∈ Predicate.memberFields ps, P d' f ∧ f.attribute?.isSome = true) ∧
      ∀ name ∈ Predicate.memberParameters ps, isParameterName name = true := by
  cases cs with
  | nil =>
    obtain ⟨rfl, rfl⟩ := Prod.mk.inj (Except.ok.inj h)
    exact ⟨.refl hd, by simp [Predicate.memberFields], by simp [Predicate.memberParameters]⟩
  | cons c rest =>
    obtain ⟨⟨p, e⟩, hmember, h⟩ := bind_eq_ok.mp h
    obtain ⟨⟨others, e'⟩, hrest, h⟩ := bind_eq_ok.mp h
    obtain ⟨rfl, rfl⟩ := Prod.mk.inj (pure_eq_ok.mp h)
    obtain ⟨hgrows, hfields, hnames⟩ := predicate_kept hP hd hmember
    obtain ⟨hgrows', hfields', hnames'⟩ := predicates_kept hP hgrows.built hrest
    refine ⟨hgrows.trans hgrows', List.forall_mem_append.mpr ⟨fun f hf => ?_, hfields'⟩,
      List.forall_mem_append.mpr ⟨hnames, hnames'⟩⟩
    obtain ⟨hf, hscalar⟩ := hfields f hf
    exact ⟨hP.grow hgrows.built hgrows' hf, hscalar⟩
end

/-! ## Reading after operations -/

theorem scalarPath_reads {path : String} {f : FieldPath} (hd : Built m d)
    (h : d.scalarPath m path = .ok (f, d')) : Grows m d d' ∧ d'.ReadsScalar f :=
  scalarPath_kept (kept_reads m) hd h

theorem scalarPaths_reads {paths : List String} {fields : List FieldPath} (hd : Built m d)
    (h : d.scalarPaths m paths = .ok (fields, d')) :
    Grows m d d' ∧ ∀ f ∈ fields, d'.ReadsScalar f :=
  scalarPaths_kept (kept_reads m) hd h

theorem projectPaths_reads {seen paths : List String} {fields : List FieldPath} (hd : Built m d)
    (h : d.projectPaths m seen paths = .ok (fields, d')) :
    Grows m d d' ∧ ∀ f ∈ fields, d'.Reads f :=
  projectPaths_kept (kept_reads m) hd h

theorem predicate_reads {c : Condition} {p : Predicate} (hd : Built m d)
    (h : d.predicate m c = .ok (p, d')) :
    Grows m d d' ∧ (∀ f ∈ p.fields, d'.ReadsScalar f) ∧
      ∀ name ∈ p.parameters, isParameterName name = true :=
  predicate_kept (kept_reads m) hd h

theorem predicates_reads {cs : List Condition} {ps : List Predicate} (hd : Built m d)
    (h : d.predicates m cs = .ok (ps, d')) :
    Grows m d d' ∧ (∀ f ∈ Predicate.memberFields ps, d'.ReadsScalar f) ∧
      ∀ name ∈ Predicate.memberParameters ps, isParameterName name = true :=
  predicates_kept (kept_reads m) hd h

/-! ## Operations -/

/-- What an operation does that is accepted: it resolves its paths, and adds its stage behind them. -/
inductive Applies (m : Mapper) (d : Draft) : Operation → Draft → Prop
  | filter {c : Condition} {p : Predicate} {e : Draft} (resolved : d.predicate m c = .ok (p, e)) :
    Applies m d (.filter c) (e.add (.filter p))
  | project {paths : List String} {fields : List FieldPath} {e : Draft}
      (resolved : d.projectPaths m [] paths = .ok (fields, e)) (nonempty : fields ≠ []) :
    Applies m d (.project paths) (e.add (.project fields))
  | order {paths : List String} {direction : SortDirection} {fields : List FieldPath} {e : Draft}
      (asked : paths ≠ []) (resolved : d.scalarPaths m paths = .ok (fields, e)) :
    Applies m d (.order paths direction) (e.add (.order fields direction))
  | limit (count offset : Int64) : Applies m d (.limit count offset) (d.add (.limit count offset))
  | aggregate {function path : String} {groupBy : List String} {field : FieldPath}
      {groups : List FieldPath} {e e' : Draft} (resolved : d.scalarPath m path = .ok (field, e))
      (grouped : e.scalarPaths m groupBy = .ok (groups, e')) :
    Applies m d (.aggregate function path groupBy) (e'.add (.aggregate ⟨function, field, groups⟩))
  | traverse {relationship : String} {depth : UInt32} {e : Draft}
      (followed : d.followChain m .root d.entity depth (Text.split '.' relationship) = .ok e) :
    Applies m d (.traverse relationship depth) e
  /-- A relation that is included already is not included again. -/
  | included {relationship : String} {hop : Hop}
      (found : m.topology.hop d.entity relationship = .ok hop)
      (present : ∃ i ∈ d.query.inclusions, i.relationship = relationship) :
    Applies m d (.include relationship) d
  | include {relationship : String} {hop : Hop}
      (found : m.topology.hop d.entity relationship = .ok hop)
      (fresh : ∀ i ∈ d.query.inclusions, i.relationship ≠ relationship) :
    Applies m d (.include relationship)
      (d.add (.include ⟨relationship, hop.target, hop.direction, hop.cardinality⟩))

theorem applies_of_apply {op : Operation} (h : d.apply m op = .ok d') : Applies m d op d' := by
  cases op with
  | filter condition =>
    obtain ⟨⟨p, e⟩, hpredicate, h⟩ := bind_eq_ok.mp h
    exact pure_eq_ok.mp h ▸ .filter hpredicate
  | project paths =>
    obtain ⟨⟨fields, e⟩, hpaths, h⟩ := bind_eq_ok.mp h
    obtain ⟨hempty, h⟩ := guard_eq_ok.mp h
    exact pure_eq_ok.mp h ▸ .project hpaths (by simpa using hempty)
  | order paths direction =>
    obtain ⟨hempty, h⟩ := guard_eq_ok.mp h
    obtain ⟨⟨fields, e⟩, hpaths, h⟩ := bind_eq_ok.mp h
    exact pure_eq_ok.mp h ▸ .order (by simpa using hempty) hpaths
  | limit count offset => exact pure_eq_ok.mp h ▸ .limit count offset
  | aggregate function path groupBy =>
    obtain ⟨⟨field, e⟩, hpath, h⟩ := bind_eq_ok.mp h
    obtain ⟨⟨groups, e'⟩, hgroups, h⟩ := bind_eq_ok.mp h
    exact pure_eq_ok.mp h ▸ .aggregate hpath hgroups
  | traverse relationship depth => exact .traverse h
  | «include» relationship =>
    obtain ⟨hop, hhop, h⟩ := bind_eq_ok.mp h
    split at h
    · next hpresent => exact pure_eq_ok.mp h ▸ .included hhop (by simpa using hpresent)
    · next hfresh => exact pure_eq_ok.mp h ▸ .include hhop (by simpa using hfresh)

/-- An operation adds stages that the draft admits. -/
theorem apply_built {op : Operation} (hd : Built m d) (h : d.apply m op = .ok d') :
    Built m d' ∧ d'.entity = d.entity := by
  cases applies_of_apply h with
  | filter hpredicate =>
    obtain ⟨hgrows, hreads, hnames⟩ := predicate_reads hd hpredicate
    exact ⟨hgrows.built.add (.filter hreads hnames), hgrows.entity⟩
  | project hpaths hne =>
    obtain ⟨hgrows, hreads⟩ := projectPaths_reads hd hpaths
    exact ⟨hgrows.built.add (.project hreads hne), hgrows.entity⟩
  | order _ hpaths =>
    obtain ⟨hgrows, hreads⟩ := scalarPaths_reads hd hpaths
    exact ⟨hgrows.built.add (.order hreads), hgrows.entity⟩
  | limit count offset => exact ⟨hd.add .limit, rfl⟩
  | aggregate hpath hgroups =>
    obtain ⟨hgrows, hreads⟩ := scalarPath_reads hd hpath
    obtain ⟨hgrows', hreads'⟩ := scalarPaths_reads hgrows.built hgroups
    have hall := hgrows.trans hgrows'
    exact ⟨hall.built.add (.aggregate (hgrows'.readsScalar hreads) hreads'), hall.entity⟩
  | traverse hchain => exact followChain_built hd (show d.At .root d.entity from rfl) hchain
  | included _ _ => exact ⟨hd, rfl⟩
  | «include» hhop hfresh => exact ⟨hd.add (.include hhop hfresh), rfl⟩

end Draft

/-! ## Drafts of operations -/

namespace Mapper

variable {m : Mapper} {entity : String} {ops : List Operation}

/-- The draft that operations over an entity make. -/
def draft (m : Mapper) (entity : String) (ops : List Operation) : Except Error Draft := do
  let start ← Draft.start m entity
  ops.foldlM (Draft.apply m) start

/-- What holds of the draft of an entity, and goes on to hold with each operation, holds of every
draft. -/
theorem draft_preserves {P : Draft → Prop}
    (hstart : ∀ collection, P { entity, collection })
    (hstep : ∀ d op d', Draft.Built m d → P d → d.apply m op = .ok d' → P d') {d : Draft}
    (h : m.draft entity ops = .ok d) : Draft.Built m d ∧ P d := by
  obtain ⟨start, hlooked, hrun⟩ := bind_eq_ok.mp h
  obtain ⟨e, hlookup, heq⟩ := bind_eq_ok.mp hlooked
  obtain rfl := pure_eq_ok.mp heq
  refine foldlM_preserves (P := fun d => Draft.Built m d ∧ P d) (fun d op d' _ hd hstep' => ?_)
    ⟨.start hlookup, hstart e.collectionName⟩ hrun
  exact ⟨(Draft.apply_built hd.1 hstep').1, hstep d op d' hd.1 hd.2 hstep'⟩

theorem draft_built {d : Draft} (h : m.draft entity ops = .ok d) :
    Draft.Built m d ∧ d.entity = entity :=
  draft_preserves (P := fun d => d.entity = entity) (fun _ => rfl)
    (fun _ _ _ hbuilt hd hstep => (Draft.apply_built hbuilt hstep).2.trans hd) h

theorem query_eq_ok {q : Query} :
    m.query entity ops = .ok q ↔ ∃ d, m.draft entity ops = .ok d ∧ d.query = q := by
  constructor
  · intro h
    obtain ⟨start, hstart, h⟩ := bind_eq_ok.mp h
    obtain ⟨d, hrun, hquery⟩ := bind_eq_ok.mp h
    exact ⟨d, bind_eq_ok.mpr ⟨start, hstart, hrun⟩, pure_eq_ok.mp hquery⟩
  · rintro ⟨d, h, rfl⟩
    obtain ⟨start, hstart, hrun⟩ := bind_eq_ok.mp h
    exact bind_eq_ok.mpr ⟨start, hstart, bind_eq_ok.mpr ⟨d, hrun, rfl⟩⟩

/-- A query is a draft that stages have been added to, over the entity that was asked for. -/
theorem query_built {q : Query} (h : m.query entity ops = .ok q) :
    ∃ d, Draft.Built m d ∧ d.entity = entity ∧ d.query = q := by
  obtain ⟨d, hd, hquery⟩ := query_eq_ok.mp h
  obtain ⟨hbuilt, hentity⟩ := draft_built hd
  exact ⟨d, hbuilt, hentity, hquery⟩

end Mapper

end GraphMapper
