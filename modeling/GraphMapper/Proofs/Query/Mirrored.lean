import GraphMapper.Proofs.Query.Assignments

/-!
# Resolving in another draft

What resolves in one draft resolves in every other draft over the same entity, if traversals may
have one hop: to the same fields along the same routes (`FieldPath.Mirrors`), and so to a predicate
with the same outcome along every assignment (`Predicate.Mirrors`). The other draft gets no routes
that the first one has not got after it. Neither the traversals that are there already nor their
numbers matter.
-/

namespace GraphMapper

open Outcome Aql

variable {m : Mapper} {d d' d'' e e' e'' : Draft}

/-! ## Fields and predicates of two drafts -/

/-- The fields differ in their scopes at most, and these have one route. -/
structure FieldPath.Mirrors (d e : Draft) (f g : FieldPath) : Prop where
  same : g = { f with scope := g.scope }
  route : e.route g.scope = d.route f.scope

/-- The predicates have one outcome along every assignment. -/
def Predicate.Mirrors (d e : Draft) (p q : Predicate) : Prop :=
  ∀ (V : Type) (db : Database V) (operand : Operand → V) (σ : Route → V),
    q.judged ((e.bindings db σ).eval db) operand = p.judged ((d.bindings db σ).eval db) operand

/-- The predicates have one outcome along every assignment, one by one. -/
def Predicate.MembersMirror (d e : Draft) (ps qs : List Predicate) : Prop :=
  ∀ (V : Type) (db : Database V) (operand : Operand → V) (σ : Route → V),
    Predicate.memberJudged ((e.bindings db σ).eval db) operand qs =
      Predicate.memberJudged ((d.bindings db σ).eval db) operand ps

theorem FieldPath.Mirrors.eval {V : Type} {f g : FieldPath} (h : f.Mirrors d e g)
    (hd : Draft.Built m d) (he : Draft.Built m e) (hf : d.Reads f) (hg : e.Reads g)
    (db : Database V) (σ : Route → V) :
    (e.bindings db σ).eval db g.expr = (d.bindings db σ).eval db f.expr := by
  have hattribute : g.attribute? = f.attribute? := by rw [h.same]
  rw [he.eval_bindings hg, hd.eval_bindings hf, h.route, hattribute]

/-- Drafts that grow keep the outcomes. -/
theorem Predicate.Mirrors.grow {p q : Predicate} (h : p.Mirrors d e q) (hd : Draft.Built m d)
    (he : Draft.Built m e) (hgrows : Draft.Grows m d d') (hgrows' : Draft.Grows m e e')
    (hp : ∀ f ∈ p.fields, d.Reads f) (hq : ∀ f ∈ q.fields, e.Reads f) : p.Mirrors d' e' q := by
  intro V db operand σ
  rw [hgrows'.judged_eq he hq, hgrows.judged_eq hd hp]
  exact h V db operand σ

namespace Draft

/-- Routes that another draft gets on the way are among those at the end. -/
theorem Grows.routes_subset (h : Grows m d' d'') (hfirst : e'.routes ⊆ e.routes ++ d'.routes)
    (hrest : e''.routes ⊆ e'.routes ++ d''.routes) : e''.routes ⊆ e.routes ++ d''.routes := by
  intro r hr
  rcases List.mem_append.mp (hrest hr) with hr | hr
  · rcases List.mem_append.mp (hfirst hr) with hr | hr
    · exact List.mem_append_left _ hr
    · exact List.mem_append_right _ (h.routes_isPrefix.subset hr)
  · exact List.mem_append_right _ hr

/-! ## Following relations -/

section

variable (hmax : 1 ≤ m.settings.maxTraversalDepth)
include hmax

theorem follow_mirrored {scope scope' other : Scope} {source relationship target : String}
    (hd : Built m d) (he : Built m e) (hat : d.At scope source) (hat' : e.At other source)
    (hroute : e.route other = d.route scope)
    (h : follow m d scope source relationship none = .ok (scope', target, d')) :
    ∃ other' e', follow m e other source relationship none = .ok (other', target, e') ∧
      e'.route other' = d'.route scope' ∧ e'.routes ⊆ e.routes ++ d'.routes := by
  obtain ⟨hop, hhop, rfl, -⟩ := follow_eq_ok h
  obtain ⟨other', e', h'⟩ := exists_follow hmax hhop e other
  obtain ⟨hnew, -⟩ := follow_route hd hat h
  obtain ⟨hnew', hroutes⟩ := follow_route he hat' h'
  refine ⟨other', e', h', by rw [hnew, hnew', hroute], ?_⟩
  -- the route that may be new is that of the scope which the first draft has reached
  obtain ⟨hgrows, hreached⟩ := follow_grows hd hat h
  have hmem : relationship :: e.route other ∈ d'.routes := by
    rw [hroute, ← hnew]
    refine (hgrows.built.route_mem hreached).resolve_left ?_
    rw [hnew]
    exact List.cons_ne_nil _ _
  intro r hr
  rw [hroutes, List.mem_append] at hr
  rcases hr with hr | hr
  · exact List.mem_append_left _ hr
  · obtain rfl := List.mem_singleton.mp (List.mem_of_mem_filter hr)
    exact List.mem_append_right _ hmem

/-! ## Resolving paths -/

theorem resolveFrom_mirrored {path : String} {scope other : Scope} {entity : String}
    {segments : List String} {f : FieldPath} (hd : Built m d) (he : Built m e)
    (hat : d.At scope entity) (hat' : e.At other entity) (hroute : e.route other = d.route scope)
    (h : resolveFrom m path d scope entity segments = .ok (f, d')) :
    ∃ g e', resolveFrom m path e other entity segments = .ok (g, e') ∧ f.Mirrors d' e' g ∧
      e'.routes ⊆ e.routes ++ d'.routes := by
  induction segments generalizing d e scope other entity with
  | nil =>
    obtain ⟨rfl, rfl⟩ := Prod.mk.inj (Except.ok.inj h)
    exact ⟨_, _, rfl, ⟨rfl, hroute⟩, List.subset_append_left _ _⟩
  | cons segment rest ih =>
    obtain ⟨a, hend⟩ | ⟨failure, hend⟩ | hnext := resolveFrom_cons m path entity segment rest
    · rw [hend] at h ⊢
      obtain ⟨rfl, rfl⟩ := Prod.mk.inj (Except.ok.inj h)
      exact ⟨_, _, rfl, ⟨rfl, hroute⟩, List.subset_append_left _ _⟩
    · rw [hend] at h
      cases h
    · rw [hnext] at h ⊢
      obtain ⟨⟨scope₁, entity₁, d₁⟩, hfollow, h⟩ := bind_eq_ok.mp h
      obtain ⟨other₁, e₁, hfollow', hroute₁, hsubset⟩ :=
        follow_mirrored hmax hd he hat hat' hroute hfollow
      obtain ⟨hgrows, hat₁⟩ := follow_grows hd hat hfollow
      obtain ⟨hgrows', hat₁'⟩ := follow_grows he hat' hfollow'
      obtain ⟨g, e', hrest, hmirrors, hsubset'⟩ :=
        ih hgrows.built hgrows'.built hat₁ hat₁' hroute₁ h
      obtain ⟨hgrows₁, -⟩ := resolveFrom_reads hgrows.built hat₁ h
      exact ⟨g, e', bind_eq_ok.mpr ⟨_, hfollow', hrest⟩, hmirrors,
        hgrows₁.routes_subset hsubset hsubset'⟩

section

variable (hd : Built m d) (he : Built m e) (hentity : e.entity = d.entity)
include hd he hentity

theorem resolvePath_mirrored {path : String} {f : FieldPath}
    (h : d.resolvePath m path = .ok (f, d')) :
    ∃ g e', e.resolvePath m path = .ok (g, e') ∧ f.Mirrors d' e' g ∧
      e'.routes ⊆ e.routes ++ d'.routes := by
  unfold resolvePath at h ⊢
  dsimp only at h ⊢
  split at h
  · cases h
  · next hsegments =>
    rw [if_neg hsegments, hentity]
    have hat : d.At .root d.entity := rfl
    have hat' : e.At .root d.entity := hentity.symm
    exact resolveFrom_mirrored hmax hd he hat hat' rfl h

/-- The field of a path has one value in both drafts, along every assignment. -/
theorem scalarPath_mirrored {path : String} {f : FieldPath}
    (h : d.scalarPath m path = .ok (f, d')) :
    ∃ g e', e.scalarPath m path = .ok (g, e') ∧ g = { f with scope := g.scope } ∧
      (∀ (V : Type) (db : Database V) (σ : Route → V),
        (e'.bindings db σ).eval db g.expr = (d'.bindings db σ).eval db f.expr) ∧
      e'.routes ⊆ e.routes ++ d'.routes := by
  obtain ⟨hgrows, hreads, -⟩ := scalarPath_reads hd h
  obtain ⟨⟨f', d'⟩, hpath, h⟩ := bind_eq_ok.mp h
  obtain ⟨hscalar, h⟩ := guard_eq_ok.mp h
  obtain ⟨rfl, rfl⟩ := Prod.mk.inj (pure_eq_ok.mp h)
  obtain ⟨g, e', hpath', hmirrors, hsubset⟩ := resolvePath_mirrored hmax hd he hentity hpath
  obtain ⟨hgrows', hreads'⟩ := resolvePath_reads he hpath'
  have hscalar' : ¬ g.attribute?.isNone := by
    rw [hmirrors.same]
    exact hscalar
  exact ⟨g, e', bind_eq_ok.mpr ⟨_, hpath', guard_eq_ok.mpr ⟨hscalar', rfl⟩⟩, hmirrors.same,
    fun V db σ => hmirrors.eval hgrows.built hgrows'.built hreads hreads' db σ, hsubset⟩

end

end

/-! ## Resolving conditions -/

mutual
/-- A condition that resolves in one draft resolves in the other. -/
theorem predicate_mirrored {c : Condition} {p : Predicate} {d d' e : Draft}
    (hmax : 1 ≤ m.settings.maxTraversalDepth) (hd : Built m d) (he : Built m e)
    (hentity : e.entity = d.entity) (h : d.predicate m c = .ok (p, d')) :
    ∃ q e', e.predicate m c = .ok (q, e') ∧ p.Mirrors d' e' q ∧
      e'.routes ⊆ e.routes ++ d'.routes := by
  cases c with
  | compare path comparison operand =>
    obtain ⟨⟨f, d'⟩, hpath, h⟩ := bind_eq_ok.mp h
    obtain ⟨_, hcheck, h⟩ := bind_eq_ok.mp h
    obtain ⟨rfl, rfl⟩ := Prod.mk.inj (pure_eq_ok.mp h)
    obtain ⟨g, e', hpath', hsame, heval, hsubset⟩ :=
      scalarPath_mirrored hmax hd he hentity hpath
    have hcheck' : operand.check g comparison = .ok () := by
      rw [hsame]
      cases operand <;> exact hcheck
    refine ⟨_, e', bind_eq_ok.mpr ⟨_, hpath', bind_eq_ok.mpr ⟨_, hcheck', rfl⟩⟩, ?_, hsubset⟩
    intro V db given σ
    rw [Predicate.judged, Predicate.judged, heval, hsame]
    rfl
  | isNull path negated =>
    obtain ⟨⟨f, d'⟩, hpath, h⟩ := bind_eq_ok.mp h
    obtain ⟨rfl, rfl⟩ := Prod.mk.inj (pure_eq_ok.mp h)
    obtain ⟨g, e', hpath', -, heval, hsubset⟩ := scalarPath_mirrored hmax hd he hentity hpath
    refine ⟨_, e', bind_eq_ok.mpr ⟨_, hpath', rfl⟩, ?_, hsubset⟩
    intro V db given σ
    rw [Predicate.judged, Predicate.judged, heval]
  | all conditions =>
    obtain ⟨hempty, h⟩ := guard_eq_ok.mp h
    obtain ⟨⟨ps, d'⟩, hmembers, h⟩ := bind_eq_ok.mp h
    obtain ⟨rfl, rfl⟩ := Prod.mk.inj (pure_eq_ok.mp h)
    obtain ⟨qs, e', hmembers', hmirrors, hsubset⟩ := predicates_mirrored hmax hd he hentity hmembers
    refine ⟨.all qs, e', guard_eq_ok.mpr ⟨hempty, bind_eq_ok.mpr ⟨_, hmembers', rfl⟩⟩, ?_, hsubset⟩
    exact fun V db operand σ => congrArg Judgement.all (hmirrors V db operand σ)
  | any conditions =>
    obtain ⟨hempty, h⟩ := guard_eq_ok.mp h
    obtain ⟨⟨ps, d'⟩, hmembers, h⟩ := bind_eq_ok.mp h
    obtain ⟨rfl, rfl⟩ := Prod.mk.inj (pure_eq_ok.mp h)
    obtain ⟨qs, e', hmembers', hmirrors, hsubset⟩ := predicates_mirrored hmax hd he hentity hmembers
    refine ⟨.any qs, e', guard_eq_ok.mpr ⟨hempty, bind_eq_ok.mpr ⟨_, hmembers', rfl⟩⟩, ?_, hsubset⟩
    exact fun V db operand σ => congrArg Judgement.any (hmirrors V db operand σ)
  | not condition =>
    obtain ⟨⟨p', d'⟩, hmember, h⟩ := bind_eq_ok.mp h
    obtain ⟨rfl, rfl⟩ := Prod.mk.inj (pure_eq_ok.mp h)
    obtain ⟨q', e', hmember', hmirrors, hsubset⟩ := predicate_mirrored hmax hd he hentity hmember
    refine ⟨.not q', e', bind_eq_ok.mpr ⟨_, hmember', rfl⟩, ?_, hsubset⟩
    exact fun V db operand σ => congrArg Judgement.not (hmirrors V db operand σ)
theorem predicates_mirrored {cs : List Condition} {ps : List Predicate} {d d' e : Draft}
    (hmax : 1 ≤ m.settings.maxTraversalDepth) (hd : Built m d) (he : Built m e)
    (hentity : e.entity = d.entity) (h : d.predicates m cs = .ok (ps, d')) :
    ∃ qs e', e.predicates m cs = .ok (qs, e') ∧ Predicate.MembersMirror d' e' ps qs ∧
      e'.routes ⊆ e.routes ++ d'.routes := by
  cases cs with
  | nil =>
    obtain ⟨rfl, rfl⟩ := Prod.mk.inj (Except.ok.inj h)
    exact ⟨[], e, rfl, fun _ _ _ _ => rfl, List.subset_append_left _ _⟩
  | cons c rest =>
    obtain ⟨⟨p, d₁⟩, hmember, h⟩ := bind_eq_ok.mp h
    obtain ⟨⟨others, d'⟩, hrest, h⟩ := bind_eq_ok.mp h
    obtain ⟨rfl, rfl⟩ := Prod.mk.inj (pure_eq_ok.mp h)
    obtain ⟨q, e₁, hmember', hmirrors, hsubset⟩ := predicate_mirrored hmax hd he hentity hmember
    obtain ⟨hgrows, hreads, -⟩ := predicate_reads hd hmember
    obtain ⟨hgrows', hreads', -⟩ := predicate_reads he hmember'
    have hentity₁ : e₁.entity = d₁.entity := by rw [hgrows'.entity, hgrows.entity, hentity]
    obtain ⟨qs, e', hrest', hmembers, hsubset'⟩ :=
      predicates_mirrored hmax hgrows.built hgrows'.built hentity₁ hrest
    obtain ⟨hgrows₁, -⟩ := predicates_reads hgrows.built hrest
    obtain ⟨hgrows₁', -⟩ := predicates_reads hgrows'.built hrest'
    -- the outcome of the first member is the same after the traversals of the others
    have hfirst : p.Mirrors d' e' q := hmirrors.grow hgrows.built hgrows'.built hgrows₁ hgrows₁'
      (fun f hf => (hreads f hf).1) fun f hf => (hreads' f hf).1
    refine ⟨q :: qs, e', bind_eq_ok.mpr ⟨_, hmember', bind_eq_ok.mpr ⟨_, hrest', rfl⟩⟩, ?_,
      hgrows₁.routes_subset hsubset hsubset'⟩
    intro V db operand σ
    rw [Predicate.memberJudged, Predicate.memberJudged, hfirst V db operand σ,
      hmembers V db operand σ]
end

end Draft

end GraphMapper
