import GraphMapper.Proofs.Query.Built

/-!
# Routes

The number of a traversal depends on the order in which paths were resolved. What does not depend
on it is its route: the relations that lead from the root document to the one that it reaches
(`Draft.route`). The entity at a scope is the one at the end of its route (`Built.along_route`), and
no two scopes of a draft have one route (`Built.route_injective`). Following a relation leads to the
scope whose route it ends, and that route is added if it was not there (`Draft.follow_route`).
-/

namespace GraphMapper

open Outcome

/-- The relations that lead from a root document to a related one, the last of them first. -/
abbrev Route := List String

/-- The entity at the end of a route. -/
def Topology.along (topology : Topology) (entity : String) : Route → Except Error String
  | [] => .ok entity
  | relationship :: prior => do
    let source ← topology.along entity prior
    let hop ← topology.hop source relationship
    return hop.target

/-- The route of a scope, given those of the traversals in order. -/
def Scope.route (routes : List Route) : Scope → Route
  | .root => []
  | .traversal index => routes[index]?.getD []

namespace Draft

/-- Appends the routes of traversals. -/
def addRoutes (routes : List Route) (ts : List Traversal) : List Route :=
  ts.foldl (fun routes t => routes ++ [t.relationship :: t.from.route routes]) routes

/-- The routes of the traversals of a draft. -/
def routes (d : Draft) : List Route := addRoutes [] d.traversals

/-- The route of a scope of a draft. -/
def route (d : Draft) (scope : Scope) : Route := scope.route d.routes

variable {m : Mapper} {d d' : Draft} {scope scope' : Scope} {entity entity' : String}

/-! ## Routes of longer drafts -/

theorem isPrefix_addRoutes (routes : List Route) (ts : List Traversal) :
    routes <+: addRoutes routes ts := by
  induction ts generalizing routes with
  | nil => exact List.prefix_rfl
  | cons t rest ih => exact (List.prefix_append _ _).trans (ih _)

theorem length_addRoutes (routes : List Route) (ts : List Traversal) :
    (addRoutes routes ts).length = routes.length + ts.length := by
  induction ts generalizing routes with
  | nil => rfl
  | cons t rest ih =>
    rw [addRoutes, List.foldl_cons, ← addRoutes, ih, List.length_append, List.length_singleton,
      List.length_cons]
    omega

theorem addRoutes_append (routes : List Route) (ts us : List Traversal) :
    addRoutes routes (ts ++ us) = addRoutes (addRoutes routes ts) us :=
  List.foldl_append

@[simp] theorem length_routes (d : Draft) : d.routes.length = d.traversals.length := by
  simp [routes, length_addRoutes]

theorem routes_add (d : Draft) (s : Stage) : (d.add s).routes =
    d.routes ++ s.traversal?.toList.map fun t => t.relationship :: d.route t.from := by
  rw [routes, traversals_add, addRoutes_append]
  cases s.traversal? with
  | none => exact (List.append_nil _).symm
  | some t => rfl

theorem Grows.routes_isPrefix (h : Grows m d d') : d.routes <+: d'.routes := by
  obtain ⟨ts, hts⟩ := h.traversals_isPrefix
  rw [routes, routes, ← hts, addRoutes_append]
  exact isPrefix_addRoutes _ _

theorem Built.index_lt (hd : Built m d) {index : Nat} (hat : d.At (.traversal index) entity) :
    index < d.routes.length := by
  obtain ⟨t, ht, rfl, -⟩ := hat
  have hindex : t.index ∈ d.traversals.map (·.index) := List.mem_map_of_mem ht
  rwa [hd.map_index, List.mem_range, ← length_routes] at hindex

/-- A scope keeps its route. -/
theorem Built.route_eq (hd : Built m d) (hat : d.At scope entity)
    (hlonger : d.routes <+: d'.routes) : d'.route scope = d.route scope := by
  cases scope with
  | root => rfl
  | traversal index =>
    obtain ⟨more, hmore⟩ := hlonger
    rw [route, route, Scope.route, Scope.route, ← hmore,
      List.getElem?_append_left (hd.index_lt hat)]

theorem Grows.route (h : Grows m d d') (hd : Built m d) (hat : d.At scope entity) :
    d'.route scope = d.route scope :=
  hd.route_eq hat h.routes_isPrefix

theorem Built.route_add (hd : Built m d) (hat : d.At scope entity) (s : Stage) :
    (d.add s).route scope = d.route scope :=
  hd.route_eq hat (routes_add d s ▸ List.prefix_append _ _)

/-! ## Routes and traversals -/

/-- Every scope but the root has one of the routes. -/
theorem Built.route_mem (hd : Built m d) (hat : d.At scope entity) :
    d.route scope = [] ∨ d.route scope ∈ d.routes := by
  cases scope with
  | root => exact Or.inl rfl
  | traversal index =>
    have hlt := hd.index_lt hat
    right
    rw [route, Scope.route, List.getElem?_eq_getElem hlt]
    exact List.getElem_mem hlt

/-- The relation of a traversal continues the route of the scope where it starts. -/
theorem Built.route_traversal (hd : Built m d) {t : Traversal} (ht : t ∈ d.traversals) :
    d.route (.traversal t.index) = t.relationship :: d.route t.from := by
  induction hd with
  | start => cases ht
  | @add d s hd hs ih =>
    rw [traversals_add, List.mem_append] at ht
    rcases ht with ht | ht
    · have hat : d.At (.traversal t.index) t.target := ⟨t, ht, rfl, rfl⟩
      rw [hd.route_add hat, hd.route_add (hd.traversal ht).1, ih ht]
    · have hs' : s.traversal? = some t := Option.mem_toList.mp ht
      have hfrom : (d.add s).route t.from = d.route t.from := by
        cases hs with
        | traverse hat =>
          obtain rfl := Option.some.inj hs'
          exact hd.route_add hat _
        | _ => cases hs'
      rw [hfrom, route, Scope.route, routes_add, hs', hs.index hs', ← length_routes]
      simp

/-- The routes of a draft are those of its traversals. -/
theorem Built.mem_routes (hd : Built m d) {r : Route} :
    r ∈ d.routes ↔ ∃ t ∈ d.traversals, d.route (.traversal t.index) = r := by
  constructor
  · intro hr
    obtain ⟨i, hi, rfl⟩ := List.getElem_of_mem hr
    have hlt : i < d.traversals.length := by rwa [length_routes] at hi
    have hindex : d.traversals[i].index = i := by
      have hget := List.getElem_map (·.index) (l := d.traversals) (i := i) (h := by simpa using hlt)
      rw [← hget]
      simp [hd.map_index]
    refine ⟨d.traversals[i], List.getElem_mem hlt, ?_⟩
    rw [hindex, route, Scope.route, List.getElem?_eq_getElem hi, Option.getD_some]
  · rintro ⟨t, ht, rfl⟩
    have hat : d.At (.traversal t.index) t.target := ⟨t, ht, rfl, rfl⟩
    refine (hd.route_mem hat).resolve_left ?_
    rw [hd.route_traversal ht]
    exact List.cons_ne_nil _ _

/-- The entity at a scope is the one at the end of its route. -/
theorem Built.along_route (hd : Built m d) (hat : d.At scope entity) :
    m.topology.along d.entity (d.route scope) = .ok entity := by
  induction hd generalizing scope entity with
  | start =>
    cases scope with
    | root => exact congrArg Except.ok hat.symm
    | traversal index =>
      obtain ⟨t, ht, -⟩ := hat
      cases ht
  | @add d s hd hs ih =>
    cases scope with
    | root => exact congrArg Except.ok hat.symm
    | traversal index =>
      obtain ⟨t, ht, rfl, rfl⟩ := hat
      rw [traversals_add, List.mem_append] at ht
      rcases ht with ht | ht
      · have hat : d.At (.traversal t.index) t.target := ⟨t, ht, rfl, rfl⟩
        rw [hd.route_add hat]
        exact ih hat
      · have hadd : t ∈ (d.add s).traversals := by
          rw [traversals_add]
          exact List.mem_append_right _ ht
        rw [(hd.add hs).route_traversal hadd]
        cases hs with
        | traverse hat hhop =>
          obtain rfl : t = _ := by simpa [Stage.traversal?] using ht
          rw [hd.route_add hat]
          exact bind_eq_ok.mpr ⟨_, ih hat, bind_eq_ok.mpr ⟨_, hhop, rfl⟩⟩
        | _ => simp [Stage.traversal?] at ht

/-! ## Scopes have routes of their own -/

theorem Built.route_injective_of_nodup (hd : Built m d) (hnodup : d.routes.Nodup)
    (hat : d.At scope entity) (hat' : d.At scope' entity') (h : d.route scope = d.route scope') :
    scope = scope' := by
  have hne : ∀ {index : Nat} {entity : String}, d.At (.traversal index) entity →
      d.route (.traversal index) ≠ [] := by
    rintro _ _ ⟨t, ht, rfl, -⟩
    rw [hd.route_traversal ht]
    exact List.cons_ne_nil _ _
  cases scope with
  | root =>
    cases scope' with
    | root => rfl
    | traversal j => exact absurd h.symm (hne hat')
  | traversal i =>
    cases scope' with
    | root => exact absurd h (hne hat)
    | traversal j =>
      have hi := hd.index_lt hat
      have hj := hd.index_lt hat'
      rw [route, route, Scope.route, Scope.route, List.getElem?_eq_getElem hi,
        List.getElem?_eq_getElem hj] at h
      exact congrArg Scope.traversal ((hnodup.getElem_inj_iff).mp h)

/-- The route of a relation that no traversal follows from a scope is new. -/
theorem Built.route_not_mem (hd : Built m d) (hnodup : d.routes.Nodup) (hat : d.At scope entity)
    {relationship : String}
    (hfresh : ∀ t ∈ d.traversals, ¬ (t.from = scope ∧ t.relationship = relationship)) :
    relationship :: d.route scope ∉ d.routes := by
  intro hmem
  obtain ⟨t, ht, heq⟩ := hd.mem_routes.mp hmem
  rw [hd.route_traversal ht] at heq
  obtain ⟨hrelationship, hroute⟩ := List.cons.inj heq
  have hfrom := hd.route_injective_of_nodup hnodup (hd.traversal ht).1 hat hroute
  exact hfresh t ht ⟨hfrom, hrelationship⟩

theorem Built.routes_nodup (hd : Built m d) : d.routes.Nodup := by
  induction hd with
  | start => exact List.nodup_nil
  | @add d s hd hs ih =>
    cases hs with
    | traverse hat _ hfresh =>
      rw [routes_add, List.nodup_append]
      refine ⟨ih, List.nodup_singleton _, ?_⟩
      rintro r hr _ hnew rfl
      obtain rfl := List.mem_singleton.mp hnew
      exact hd.route_not_mem ih hat hfresh hr
    | _ => simpa [routes_add, Stage.traversal?] using ih

/-- No two scopes of a draft have one route. -/
theorem Built.route_injective (hd : Built m d) (hat : d.At scope entity)
    (hat' : d.At scope' entity') (h : d.route scope = d.route scope') : scope = scope' :=
  hd.route_injective_of_nodup hd.routes_nodup hat hat' h

/-! ## Following relations -/

/-- Where no depth is asked for, every relation of the entity can be followed. -/
theorem exists_follow (hmax : 1 ≤ m.settings.maxTraversalDepth) {source relationship : String}
    {hop : Hop} (hhop : m.topology.hop source relationship = .ok hop) (d : Draft) (scope : Scope) :
    ∃ scope' d', follow m d scope source relationship none = .ok (scope', hop.target, d') := by
  rw [follow, hhop]
  cases d.traversals.find? fun t => t.from = scope ∧ t.relationship = relationship with
  | some t => exact ⟨_, _, rfl⟩
  | none => exact ⟨_, _, guard_eq_ok.mpr ⟨UInt32.not_lt.mpr hmax, rfl⟩⟩

/-- A relation leads to the scope whose route it ends. The draft gets this route unless it has it. -/
theorem follow_route {source relationship target : String} (hd : Built m d)
    (hat : d.At scope source)
    (h : follow m d scope source relationship none = .ok (scope', target, d')) :
    d'.route scope' = relationship :: d.route scope ∧
      d'.routes = d.routes ++ [relationship :: d.route scope].filter (· ∉ d.routes) := by
  obtain ⟨hbuilt, -, -⟩ := follow_built hd hat h
  obtain ⟨hop, -, -, hcases⟩ := follow_eq_ok h
  rcases hcases with ⟨t, ht, rfl, rfl, rfl, rfl⟩ | ⟨hfresh, -, -, rfl, rfl⟩
  · have hroute := hd.route_traversal ht
    have hmem : t.relationship :: d'.route t.from ∈ d'.routes := hd.mem_routes.mpr ⟨t, ht, hroute⟩
    exact ⟨hroute, by simp [hmem]⟩
  · let t : Traversal :=
      ⟨d.traversals.length, scope, source, relationship, hop.target, hop.direction, 1⟩
    have ht : t ∈ (d.add (.traverse t)).traversals := by simp [Stage.traversal?]
    have hroute := hbuilt.route_traversal ht
    have hfrom : (d.add (.traverse t)).route scope = d.route scope := hd.route_add hat _
    have hnew := hd.route_not_mem hd.routes_nodup hat hfresh
    refine ⟨hroute.trans (congrArg (relationship :: ·) hfrom), (routes_add d _).trans ?_⟩
    simp [hnew, Stage.traversal?]

end Draft

end GraphMapper
