import GraphMapper.Proofs.Query.Matching
import GraphMapper.Proofs.Query.Routes

/-!
# Rows as assignments

An assignment gives a document to every route. The nested loops over a draft of filters have the
rows that come from assignments which satisfy the draft (`Built.mem_nested`): the document at the end
of every route of the draft is reached from the one before it, and every filter accepts them.
Neither part refers to the numbers of the traversals or to the order of the stages.

It is taken that a database reaches the same vertices whatever the number of a traversal.
-/

namespace GraphMapper

open Outcome Aql

variable {V : Type}

/-! ## Assignments -/

/-- The document at the end of a route is one that its last relation reaches in one hop. -/
def Topology.Reaches (topology : Topology) (db : Database V) (entity : String) (σ : Route → V) :
    Route → Prop
  | [] => True
  | relationship :: prior => ∃ source hop, topology.along entity prior = .ok source ∧
      topology.hop source relationship = .ok hop ∧
      σ (relationship :: prior) ∈ db.reached 0 1 hop.edges (σ prior)

namespace Draft

/-- The variables of the scopes of a draft, with the documents at the ends of their routes. -/
def bindings (d : Draft) (db : Database V) (σ : Route → V) : Bindings V where
  value
    | .doc => σ []
    | .step index => d.routes[index]?.elim db.null σ
    | _ => db.null

/-- The assignment satisfies the traversals and filters of a draft. -/
structure Satisfied (d : Draft) (topology : Topology) (db : Database V) (operand : Operand → V)
    (σ : Route → V) : Prop where
  reaches : ∀ r ∈ d.routes, topology.Reaches db d.entity σ r
  accepts : ∀ p, .filter p ∈ d.stages →
    db.accepts (p.judged ((d.bindings db σ).eval db) operand) = true

/-- The draft has nothing but filters and traversals of one hop. -/
def Filters (d : Draft) : Prop :=
  ∀ s ∈ d.stages, (∃ p, s = .filter p) ∨ ∃ t, s = .traverse t ∧ t.depth = 1

variable {m : Mapper} {d d' : Draft} {db : Database V} {operand : Operand → V} {σ τ : Route → V}

/-! ## The variables along an assignment -/

theorem Built.bindings_scope (hd : Built m d) {scope : Scope} {entity : String}
    (hat : d.At scope entity) : (d.bindings db σ).value scope.var = σ (d.route scope) := by
  cases scope with
  | root => rfl
  | traversal index =>
    have hlt := hd.index_lt hat
    simp [route, Scope.route, Scope.var, bindings, List.getElem?_eq_getElem hlt]

/-- The value of a field is read from the document at the end of its route. -/
theorem Built.eval_bindings (hd : Built m d) {f : FieldPath} (hf : d.Reads f) :
    (d.bindings db σ).eval db f.expr =
      ((f.attribute?.map (·.segments)).getD []).foldl db.member (σ (d.route f.scope)) := by
  rw [FieldPath.expr, Bindings.eval, hd.bindings_scope hf]

/-- What a predicate reads of a draft it reads of one that has grown. -/
theorem Grows.judged_eq (h : Grows m d d') (hd : Built m d) {p : Predicate}
    (hreads : ∀ f ∈ p.fields, d.Reads f) :
    p.judged ((d'.bindings db σ).eval db) operand =
      p.judged ((d.bindings db σ).eval db) operand := by
  apply Predicate.judged_congr
  intro f hf
  have hread := hreads f hf
  rw [hd.eval_bindings hread, h.built.eval_bindings (h.reads hread), h.route hd hread]

theorem Built.reads_filter (hd : Built m d) {p : Predicate} (hp : .filter p ∈ d.stages) :
    ∀ f ∈ p.fields, d.Reads f := by
  induction hd with
  | start => cases hp
  | @add d s hd hs ih =>
    rw [stages_add, List.mem_append, List.mem_singleton] at hp
    intro f hf
    rcases hp with hp | rfl
    · exact (ih hp f hf).add s
    · cases hs with
      | filter hreads => exact (hreads f hf).1.add _

/-! ## Drafts without stages -/

theorem routes_of_empty (h : d.stages = []) : d.routes = [] := by
  simp [routes, addRoutes, traversals, query, Query.traversals, h]

theorem bindings_of_empty (h : d.stages = []) : d.bindings db σ = .root db (σ []) := by
  refine Bindings.ext (funext fun v => ?_) rfl
  cases v <;> simp [bindings, Bindings.root, routes_of_empty h]

/-- Every assignment satisfies a draft without stages. -/
theorem satisfied_of_empty (h : d.stages = []) (topology : Topology) :
    d.Satisfied topology db operand σ := by
  refine ⟨?_, ?_⟩
  · simp [routes_of_empty h]
  · simp [h]

/-! ## One more stage -/

@[simp] theorem routes_add_filter (d : Draft) (p : Predicate) :
    (d.add (.filter p)).routes = d.routes := by
  simp [routes_add, Stage.traversal?]

@[simp] theorem routes_add_traverse (d : Draft) (t : Traversal) :
    (d.add (.traverse t)).routes = d.routes ++ [t.relationship :: d.route t.from] := by
  simp [routes_add, Stage.traversal?]

@[simp] theorem bindings_add_filter (d : Draft) (p : Predicate) (db : Database V) (σ : Route → V) :
    (d.add (.filter p)).bindings db σ = d.bindings db σ := by
  simp [bindings]

/-- A traversal binds its variable to the document at the end of its route. -/
theorem bindings_add_traverse {t : Traversal} (ht : t.index = d.traversals.length) :
    (d.add (.traverse t)).bindings db σ =
      (d.bindings db σ).set (.step t.index) (σ (t.relationship :: d.route t.from)) := by
  refine Bindings.ext (funext fun v => ?_) rfl
  rw [Bindings.set_value]
  cases v with
  | step n =>
    rw [bindings, bindings, routes_add_traverse, ht, ← length_routes]
    by_cases hn : n = d.routes.length
    · simp [hn]
    · have hne : Var.step n ≠ .step d.routes.length := fun h => hn (Var.step.inj h)
      simp only [if_neg hne, List.getElem?_append, List.getElem?_singleton]
      grind
  | _ => rfl

theorem satisfied_add_filter {topology : Topology} {p : Predicate} :
    (d.add (.filter p)).Satisfied topology db operand σ ↔
      d.Satisfied topology db operand σ ∧
        db.accepts (p.judged ((d.bindings db σ).eval db) operand) = true := by
  constructor
  · rintro ⟨hreaches, haccepts⟩
    simp only [routes_add_filter, bindings_add_filter, stages_add, List.mem_append,
      List.mem_singleton] at hreaches haccepts
    exact ⟨⟨hreaches, fun q hq => haccepts q (Or.inl hq)⟩, haccepts p (Or.inr rfl)⟩
  · rintro ⟨⟨hreaches, haccepts⟩, hp⟩
    refine ⟨by simpa using hreaches, ?_⟩
    intro q hq
    rw [bindings_add_filter]
    rw [stages_add, List.mem_append, List.mem_singleton] at hq
    rcases hq with hq | hq
    · exact haccepts q hq
    · obtain rfl := Stage.filter.inj hq
      exact hp

theorem Grows.filter_mem (h : Grows m d d') {p : Predicate} :
    .filter p ∈ d'.stages ↔ .filter p ∈ d.stages := by
  obtain ⟨ts, hstages, -⟩ := h.stages
  simp [hstages]

/-- Traversals that a draft gets have to be followed; nothing else changes. -/
theorem Grows.satisfied_iff (h : Grows m d d') (hd : Built m d) :
    d'.Satisfied m.topology db operand σ ↔ d.Satisfied m.topology db operand σ ∧
      ∀ r ∈ d'.routes, m.topology.Reaches db d.entity σ r := by
  have hjudged : ∀ p, .filter p ∈ d.stages →
      p.judged ((d'.bindings db σ).eval db) operand =
        p.judged ((d.bindings db σ).eval db) operand :=
    fun p hp => h.judged_eq hd (hd.reads_filter hp)
  constructor
  · rintro ⟨hreaches, haccepts⟩
    rw [h.entity] at hreaches
    refine ⟨⟨fun r hr => hreaches r (h.routes_isPrefix.subset hr), fun p hp => ?_⟩, hreaches⟩
    exact hjudged p hp ▸ haccepts p (h.filter_mem.mpr hp)
  · rintro ⟨⟨-, haccepts⟩, hreaches⟩
    refine ⟨h.entity.symm ▸ hreaches, fun p hp => ?_⟩
    rw [hjudged p (h.filter_mem.mp hp)]
    exact haccepts p (h.filter_mem.mp hp)

/-- A traversal of one hop adds its route to those that have to be reached. -/
theorem Built.satisfied_add_traverse (hd : Built m d) {t : Traversal}
    (ht : d.Admits m (.traverse t)) (hdepth : t.depth = 1) :
    (d.add (.traverse t)).Satisfied m.topology db operand σ ↔
      d.Satisfied m.topology db operand σ ∧
        m.topology.Reaches db d.entity σ (t.relationship :: d.route t.from) := by
  have hgrows : Grows m d (d.add (.traverse t)) := ⟨hd.add ht, rfl, [t], rfl, by simpa using hdepth⟩
  rw [hgrows.satisfied_iff hd, routes_add_traverse, List.forall_mem_append,
    List.forall_mem_singleton]
  exact and_congr_right fun hσ => and_iff_right hσ.reaches

/-! ## The documents that matter -/

/-- Only the documents at the ends of the routes of a draft matter to it. -/
theorem bindings_congr (h : ∀ r, r = [] ∨ r ∈ d.routes → σ r = τ r) :
    d.bindings db σ = d.bindings db τ := by
  refine Bindings.ext (funext fun v => ?_) rfl
  cases v with
  | doc => exact h [] (Or.inl rfl)
  | step n =>
    rw [bindings, bindings]
    cases hr : d.routes[n]? with
    | none => simp [hr]
    | some r => simpa [hr] using h r (Or.inr (List.mem_of_getElem? hr))
  | _ => rfl

theorem Built.satisfied_congr (hd : Built m d) {topology : Topology}
    (h : ∀ r, r = [] ∨ r ∈ d.routes → σ r = τ r) (hσ : d.Satisfied topology db operand σ) :
    d.Satisfied topology db operand τ := by
  refine ⟨fun r hr => ?_, fun p hp => ?_⟩
  · have hreaches := hσ.reaches r hr
    obtain ⟨t, ht, rfl⟩ := hd.mem_routes.mp hr
    have hfrom := hd.route_mem (hd.traversal ht).1
    rw [hd.route_traversal ht] at hr hreaches ⊢
    obtain ⟨source, hop, halong, hhop, hmem⟩ := hreaches
    rw [h _ (Or.inr hr), h _ hfrom] at hmem
    exact ⟨source, hop, halong, hhop, hmem⟩
  · rw [← bindings_congr h]
    exact hσ.accepts p hp

end Draft

/-! ## Nested loops -/

theorem Stage.nested_concat {db : Database V} {topology : Topology} {operand : Operand → V}
    (stages : List Stage) (s : Stage) (b : Bindings V) :
    nested db topology operand (stages ++ [s]) b =
      (nested db topology operand stages b).flatMap (s.rows db topology operand) := by
  induction stages generalizing b with
  | nil => simp [nested]
  | cons s' rest ih =>
    rw [List.cons_append, nested, nested, List.flatMap_assoc]
    exact List.flatMap_congr fun b' _ => ih b'

theorem Stage.mem_rows_filter {db : Database V} {topology : Topology} {operand : Operand → V}
    {p : Predicate} {b b' : Bindings V} :
    b' ∈ (filter p).rows db topology operand b ↔
      db.accepts (p.judged (b.eval db) operand) = true ∧ b' = b := by
  rw [rows]
  split
  · next h => simp [h]
  · next h => simp [h]

namespace Draft

variable {m : Mapper} {d : Draft} {db : Database V} {operand : Operand → V}

/-- A traversal of one hop extends an assignment by a document that its relation reaches. -/
theorem Built.mem_rows_traverse (hindex : ∀ i j, db.reached i = db.reached j) (hd : Built m d)
    {t : Traversal} (ht : d.Admits m (.traverse t)) (hdepth : t.depth = 1) {root : V}
    {b : Bindings V} :
    (∃ σ : Route → V, σ [] = root ∧ d.Satisfied m.topology db operand σ ∧
        b ∈ (Stage.traverse t).rows db m.topology operand (d.bindings db σ)) ↔
      ∃ σ : Route → V, σ [] = root ∧ d.Satisfied m.topology db operand σ ∧
        m.topology.Reaches db d.entity σ (t.relationship :: d.route t.from) ∧
        (d.bindings db σ).set (.step t.index) (σ (t.relationship :: d.route t.from)) = b := by
  cases ht with
  | @traverse hop scope source relationship depth hat hhop hfresh =>
    obtain rfl : depth = 1 := hdepth
    have hone : (1 : UInt32).toNat = 1 := rfl
    have hnew := hd.route_not_mem hd.routes_nodup hat hfresh
    simp only [Stage.rows, hhop, hone, List.mem_map, hindex d.traversals.length 0,
      hd.bindings_scope hat]
    constructor
    · rintro ⟨σ, rfl, hσ, vertex, hvertex, rfl⟩
      -- the new document stands at a route that neither the root nor a traversal has
      let τ := Function.update σ (relationship :: d.route scope) vertex
      have hkept : ∀ r, r = [] ∨ r ∈ d.routes → σ r = τ r := by
        intro r hr
        refine (Function.update_of_ne ?_ _ _).symm
        rintro rfl
        rcases hr with hr | hr
        · exact List.cons_ne_nil _ _ hr
        · exact hnew hr
      have hgiven : τ (relationship :: d.route scope) = vertex := Function.update_self _ _ _
      refine ⟨τ, (hkept [] (Or.inl rfl)).symm, hd.satisfied_congr hkept hσ, ?_, ?_⟩
      · refine ⟨source, hop, hd.along_route hat, hhop, ?_⟩
        rwa [hgiven, ← hkept _ (hd.route_mem hat)]
      · rw [hgiven, bindings_congr hkept]
    · rintro ⟨σ, rfl, hσ, ⟨source', hop', halong, hhop', hmem⟩, rfl⟩
      obtain rfl := Except.ok.inj ((hd.along_route hat).symm.trans halong)
      obtain rfl := Except.ok.inj (hhop.symm.trans hhop')
      exact ⟨σ, rfl, hσ, _, hmem, rfl⟩

/-- The rows of a draft of filters are the variables along the assignments that satisfy it. -/
theorem Built.mem_nested (hindex : ∀ i j, db.reached i = db.reached j) (hd : Built m d)
    (hfilters : d.Filters) {root : V} {b : Bindings V} :
    b ∈ Stage.nested db m.topology operand d.stages (.root db root) ↔
      ∃ σ : Route → V, σ [] = root ∧ d.Satisfied m.topology db operand σ ∧
        d.bindings db σ = b := by
  induction hd generalizing b with
  | @start entity e hlookup =>
    let start : Draft := { entity, collection := e.collectionName }
    have hempty : start.stages = [] := rfl
    rw [Stage.nested, List.mem_singleton]
    constructor
    · rintro rfl
      exact ⟨fun _ => root, rfl, satisfied_of_empty hempty _, bindings_of_empty hempty⟩
    · rintro ⟨σ, rfl, -, rfl⟩
      exact bindings_of_empty hempty
  | @add d s hd hs ih =>
    obtain ⟨hrest, hs'⟩ := List.forall_mem_append.mp hfilters
    rw [stages_add, Stage.nested_concat, List.mem_flatMap]
    simp only [ih hrest]
    rcases hs' s (List.mem_singleton_self s) with ⟨p, rfl⟩ | ⟨t, rfl, hdepth⟩
    · simp only [Stage.mem_rows_filter, satisfied_add_filter, bindings_add_filter]
      constructor
      · rintro ⟨_, ⟨σ, hroot, hσ, rfl⟩, haccepts, rfl⟩
        exact ⟨σ, hroot, ⟨hσ, haccepts⟩, rfl⟩
      · rintro ⟨σ, hroot, ⟨hσ, haccepts⟩, rfl⟩
        exact ⟨_, ⟨σ, hroot, hσ, rfl⟩, haccepts, rfl⟩
    · have hnumber : t.index = d.traversals.length := hs.index rfl
      simp only [hd.satisfied_add_traverse hs hdepth, bindings_add_traverse hnumber, and_assoc]
      rw [← hd.mem_rows_traverse hindex hs hdepth]
      constructor
      · rintro ⟨_, ⟨σ, hroot, hσ, rfl⟩, hb⟩
        exact ⟨σ, hroot, hσ, hb⟩
      · rintro ⟨σ, hroot, hσ, hb⟩
        exact ⟨_, ⟨σ, hroot, hσ, rfl⟩, hb⟩

end Draft

end GraphMapper
