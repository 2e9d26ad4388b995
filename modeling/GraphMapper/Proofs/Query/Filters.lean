import GraphMapper.Proofs.Query.Distinct
import GraphMapper.Proofs.Query.Mirrored

/-!
# Queries of filters

A list of filters builds exactly if each of them builds alone (`Draft.filters_ok_iff`), and its
query returns, in order, the root documents from which one assignment of documents to routes
satisfies each condition alone (`Mapper.filter_rows`). A condition alone is read in the draft of its
own filter (`Condition.Holds`), so nothing there depends on the other filters, and filters commute.
-/

namespace GraphMapper

open Outcome Aql

variable {V : Type}

/-- The assignment satisfies the draft that the filter alone makes of an empty one. -/
def Condition.Holds (c : Condition) (m : Mapper) (empty : Draft) (db : Database V)
    (operand : Operand → V) (σ : Route → V) : Prop :=
  ∃ e, empty.apply m (.filter c) = .ok e ∧ e.Satisfied m.topology db operand σ

namespace Draft

variable {m : Mapper} {d d' e empty : Draft} {c : Condition} {db : Database V}
  {operand : Operand → V} {σ : Route → V}

theorem apply_filter_eq_ok : d.apply m (.filter c) = .ok d' ↔
    ∃ p e, d.predicate m c = .ok (p, e) ∧ d' = e.add (.filter p) := by
  rw [apply, bind_eq_ok]
  constructor
  · rintro ⟨⟨p, e⟩, hpredicate, h⟩
    exact ⟨p, e, hpredicate, (pure_eq_ok.mp h).symm⟩
  · rintro ⟨p, e, hpredicate, rfl⟩
    exact ⟨(p, e), hpredicate, rfl⟩

theorem Filters.apply (hfilters : d.Filters) (hd : Built m d)
    (h : d.apply m (.filter c) = .ok d') : d'.Filters := by
  obtain ⟨p, e, hpredicate, rfl⟩ := apply_filter_eq_ok.mp h
  obtain ⟨hgrows, -⟩ := predicate_reads hd hpredicate
  obtain ⟨ts, hstages, hdepth⟩ := hgrows.stages
  intro s hs
  rw [stages_add, hstages, List.mem_append, List.mem_append, List.mem_map,
    List.mem_singleton] at hs
  rcases hs with (hs | ⟨t, ht, rfl⟩) | rfl
  · exact hfilters s hs
  · exact Or.inr ⟨t, rfl, hdepth t ht⟩
  · exact Or.inl ⟨p, rfl⟩

/-! ## Building filters -/

section

variable (hmax : 1 ≤ m.settings.maxTraversalDepth)
include hmax

/-- A filter builds in all drafts over an entity or in none. -/
theorem filter_ok_of_ok (hd : Built m d) (he : Built m e) (hentity : e.entity = d.entity)
    (h : ∃ d', d.apply m (.filter c) = .ok d') : ∃ e', e.apply m (.filter c) = .ok e' := by
  obtain ⟨d', h⟩ := h
  obtain ⟨p, d₁, hpredicate, -⟩ := apply_filter_eq_ok.mp h
  obtain ⟨q, e₁, hpredicate', -⟩ := predicate_mirrored hmax hd he hentity hpredicate
  exact ⟨_, apply_filter_eq_ok.mpr ⟨q, e₁, hpredicate', rfl⟩⟩

/-- Filters build one after the other exactly if each of them builds alone. -/
theorem filters_ok_iff {cs : List Condition} (hd : Built m d)
    (hempty : Built m empty) (hentity : empty.entity = d.entity) :
    (∃ d', (cs.map Operation.filter).foldlM (apply m) d = .ok d') ↔
      ∀ c ∈ cs, ∃ e, empty.apply m (.filter c) = .ok e := by
  induction cs generalizing d with
  | nil => simp [pure, Except.pure]
  | cons c rest ih =>
    rw [List.forall_mem_cons, List.map_cons, List.foldlM_cons]
    constructor
    · rintro ⟨d', h⟩
      obtain ⟨d₁, hfirst, hrest⟩ := bind_eq_ok.mp h
      obtain ⟨hbuilt, hentity₁⟩ := apply_built hd hfirst
      refine ⟨filter_ok_of_ok hmax hd hempty hentity ⟨d₁, hfirst⟩, ?_⟩
      exact (ih hbuilt (hentity.trans hentity₁.symm)).mp ⟨d', hrest⟩
    · rintro ⟨hfirst, hrest⟩
      obtain ⟨d₁, hfirst⟩ := filter_ok_of_ok hmax hempty hd hentity.symm hfirst
      obtain ⟨hbuilt, hentity₁⟩ := apply_built hd hfirst
      obtain ⟨d', hrest⟩ := (ih hbuilt (hentity.trans hentity₁.symm)).mpr hrest
      exact ⟨d', bind_eq_ok.mpr ⟨d₁, hfirst, hrest⟩⟩

/-! ## What filters ask of an assignment -/

variable (hempty : Built m empty) (hstages : empty.stages = [])
include hempty hstages

/-- One more filter asks of an assignment what it asks alone. -/
theorem satisfied_filter (hd : Built m d) (hentity : empty.entity = d.entity)
    (h : d.apply m (.filter c) = .ok d') :
    d'.Satisfied m.topology db operand σ ↔
      d.Satisfied m.topology db operand σ ∧ c.Holds m empty db operand σ := by
  obtain ⟨p, d₁, hpredicate, rfl⟩ := apply_filter_eq_ok.mp h
  obtain ⟨q, e₁, halone, hmirrors, hroutes⟩ :=
    predicate_mirrored hmax hd hempty hentity hpredicate
  obtain ⟨_, _, hpredicate', -, hroutes'⟩ :=
    predicate_mirrored hmax hempty hd hentity.symm halone
  obtain ⟨rfl, rfl⟩ := Prod.mk.inj (Except.ok.inj (hpredicate.symm.trans hpredicate'))
  rw [routes_of_empty hstages, List.nil_append] at hroutes
  obtain ⟨hgrows, -⟩ := predicate_reads hd hpredicate
  obtain ⟨hgrows', -⟩ := predicate_reads hempty halone
  have hholds : c.Holds m empty db operand σ ↔
      (e₁.add (.filter q)).Satisfied m.topology db operand σ := by
    have happly := apply_filter_eq_ok.mpr ⟨q, e₁, halone, rfl⟩
    constructor
    · rintro ⟨e, he, hsatisfied⟩
      exact Except.ok.inj (happly.symm.trans he) ▸ hsatisfied
    · exact fun hsatisfied => ⟨_, happly, hsatisfied⟩
  rw [hholds, satisfied_add_filter, satisfied_add_filter, hgrows.satisfied_iff hd,
    hgrows'.satisfied_iff hempty, hmirrors V db operand σ, hentity]
  constructor
  · rintro ⟨⟨hsatisfied, hreaches⟩, haccepts⟩
    refine ⟨hsatisfied, ⟨satisfied_of_empty hstages _, ?_⟩, haccepts⟩
    exact fun r hr => hreaches r (hroutes hr)
  · rintro ⟨hsatisfied, ⟨-, hreaches⟩, haccepts⟩
    refine ⟨⟨hsatisfied, fun r hr => ?_⟩, haccepts⟩
    rcases List.mem_append.mp (hroutes' hr) with hr | hr
    · exact hsatisfied.reaches r hr
    · exact hreaches r hr

/-- What a list of filters makes of a draft. -/
theorem filters_satisfied {cs : List Condition} (hd : Built m d) (hfilters : d.Filters)
    (hentity : empty.entity = d.entity)
    (h : (cs.map Operation.filter).foldlM (apply m) d = .ok d') :
    Built m d' ∧ d'.Filters ∧ d'.entity = d.entity ∧
      ∀ (V : Type) (db : Database V) (operand : Operand → V) (σ : Route → V),
        d'.Satisfied m.topology db operand σ ↔ d.Satisfied m.topology db operand σ ∧
          ∀ c ∈ cs, c.Holds m empty db operand σ := by
  induction cs generalizing d with
  | nil =>
    obtain rfl := pure_eq_ok.mp h
    exact ⟨hd, hfilters, rfl, by simp⟩
  | cons c rest ih =>
    rw [List.map_cons, List.foldlM_cons] at h
    obtain ⟨d₁, hfirst, hrest⟩ := bind_eq_ok.mp h
    obtain ⟨hbuilt, hentity₁⟩ := apply_built hd hfirst
    obtain ⟨hbuilt', hfilters', hentity', hsatisfied⟩ :=
      ih hbuilt (hfilters.apply hd hfirst) (hentity.trans hentity₁.symm) hrest
    refine ⟨hbuilt', hfilters', hentity'.trans hentity₁, fun V db operand σ => ?_⟩
    rw [hsatisfied, satisfied_filter hmax hempty hstages hd hentity hfirst, List.forall_mem_cons,
      and_assoc]

end

end Draft

/-! ## The statement of a query of filters -/

namespace Draft

variable {m : Mapper} {d : Draft}

theorem Filters.isPlain (h : d.Filters) : ∀ s ∈ d.query.stages, s.isPlain = true := by
  intro s hs
  rcases h s hs with ⟨p, rfl⟩ | ⟨t, rfl, -⟩ <;> rfl

theorem Filters.inclusions (h : d.Filters) : d.query.inclusions = [] := by
  rw [Query.inclusions, List.filterMap_eq_nil_iff]
  intro s hs
  rcases h s hs with ⟨p, rfl⟩ | ⟨t, rfl, -⟩ <;> rfl

theorem Filters.laterFields (h : d.Filters) : d.query.stages.flatMap Stage.laterFields = [] := by
  rw [List.flatMap_eq_nil_iff]
  intro s hs
  rcases h s hs with ⟨p, rfl⟩ | ⟨t, rfl, -⟩ <;> rfl

theorem filterMap_head?_eq_filter {α β : Type} (rows : α → List β) (roots : List α) :
    (roots.filterMap fun root => (rows root).head?.map fun _ => root) =
      roots.filter fun root => !(rows root).isEmpty := by
  rw [← List.filterMap_eq_filter]
  apply List.filterMap_congr
  intro root _
  rw [Option.guard_apply]
  cases rows root <;> rfl

theorem flatMap_map_eq_filter {α β : Type} {rows : α → List β}
    (h : ∀ root, (rows root).length ≤ 1) (roots : List α) :
    (roots.flatMap fun root => (rows root).map fun _ => root) =
      roots.filter fun root => !(rows root).isEmpty := by
  rw [← filterMap_head?_eq_filter, List.filterMap_eq_flatMap_toList]
  apply List.flatMap_congr
  intro root _
  rw [← List.head?_map]
  exact (toList_head? (by simpa using h root)).symm

/-- A query of filters returns the root documents that give a row, each of them once. -/
theorem Filters.statement (h : d.Filters) (hd : Built m d)
    (hdistinct : m.settings.distinctTraversals = true) :
    ∃ st, m.statement d.query = .ok st ∧
      ∀ (V : Type) (db : Database V) (given : String → V),
        st.rows db given = (db.documents d.collection).filter fun root =>
          !(Stage.nested db m.topology (Operand.value db given) d.stages
            (.root db root)).isEmpty := by
  obtain ⟨o, inclusions, htotals, hfields, hstatement⟩ := hd.statement_rows h.isPlain
  have hresult : ∀ columns, o.result d.query columns = .document := by
    have hprojection : o.projection = [] := by
      rw [List.eq_nil_iff_forall_not_mem]
      intro f hf
      simpa [h.laterFields] using hfields f hf
    intro columns
    simp [Outline.result, htotals, hprojection, h.inclusions]
  obtain ⟨st, hst, hcollection, hrows⟩ := hstatement m.settings
  refine ⟨st, hst, fun V db given => ?_⟩
  have hdocument : ∀ b : Bindings V,
      Result.value db (b.including db inclusions) .document = b.value .doc :=
    fun b => Bindings.including_value (by simp) inclusions
  rw [Statement.rows, hcollection, hrows]
  simp only [hresult, hdocument]
  cases hjoined : d.query.isJoined m.settings with
  | true => exact filterMap_head?_eq_filter _ _
  | false =>
    have hnone : ∀ s ∈ d.query.stages, s.traversal? = none := by
      simpa [Query.isJoined, hdistinct, Query.hasTraversal, Query.traversals] using hjoined
    rw [if_neg Bool.false_ne_true]
    refine Eq.trans ?_ (flatMap_map_eq_filter (fun _ => Stage.nested_length_le_one hnone _) _)
    apply List.flatMap_congr
    intro root _
    apply List.map_congr_left
    intro b hb
    exact (Stage.nested_sameRoot hb).doc

end Draft

/-! ## Queries of filters -/

theorem Draft.start_empty {m : Mapper} {entity : String} {empty : Draft}
    (h : Draft.start m entity = .ok empty) :
    Draft.Built m empty ∧ empty.entity = entity ∧ empty.stages = [] := by
  obtain ⟨e, hlookup, h⟩ := bind_eq_ok.mp h
  obtain rfl := pure_eq_ok.mp h
  exact ⟨.start hlookup, rfl, rfl⟩

namespace Mapper

variable {m : Mapper} {entity : String}

/-- A query of filters builds exactly if each of its filters builds alone. -/
theorem query_filters_ok_iff (hmax : 1 ≤ m.settings.maxTraversalDepth) {cs : List Condition} :
    (∃ q, m.query entity (cs.map .filter) = .ok q) ↔
      ∃ empty, Draft.start m entity = .ok empty ∧
        ∀ c ∈ cs, ∃ e, empty.apply m (.filter c) = .ok e := by
  constructor
  · rintro ⟨q, hq⟩
    obtain ⟨empty, hstart, hq⟩ := bind_eq_ok.mp hq
    obtain ⟨d, hd, -⟩ := bind_eq_ok.mp hq
    obtain ⟨hempty, -, -⟩ := Draft.start_empty hstart
    exact ⟨empty, hstart, (Draft.filters_ok_iff hmax hempty hempty rfl).mp ⟨d, hd⟩⟩
  · rintro ⟨empty, hstart, hall⟩
    obtain ⟨hempty, -, -⟩ := Draft.start_empty hstart
    obtain ⟨d, hd⟩ := (Draft.filters_ok_iff hmax hempty hempty rfl).mpr hall
    exact ⟨_, bind_eq_ok.mpr ⟨empty, hstart, bind_eq_ok.mpr ⟨d, hd, rfl⟩⟩⟩

/-- A query of filters returns, in order, the root documents from which one assignment satisfies
each condition alone. -/
theorem filter_rows (hmax : 1 ≤ m.settings.maxTraversalDepth)
    (hdistinct : m.settings.distinctTraversals = true) {cs : List Condition} {q : Query}
    (hq : m.query entity (cs.map .filter) = .ok q) :
    ∃ empty st, Draft.start m entity = .ok empty ∧ q.collection = empty.collection ∧
      m.statement q = .ok st ∧ ∀ (V : Type) (db : Database V) (given : String → V),
        (∀ i j, db.reached i = db.reached j) →
        ∃ keep : V → Bool, st.rows db given = (db.documents empty.collection).filter keep ∧
          ∀ root, keep root = true ↔ ∃ σ : Route → V, σ [] = root ∧
            ∀ c ∈ cs, c.Holds m empty db (Operand.value db given) σ := by
  obtain ⟨empty, hstart, hq⟩ := bind_eq_ok.mp hq
  obtain ⟨d, hrun, hq⟩ := bind_eq_ok.mp hq
  obtain rfl := pure_eq_ok.mp hq
  obtain ⟨hempty, -, hstages⟩ := Draft.start_empty hstart
  have hnone : empty.Filters := by
    intro s hs
    rw [hstages] at hs
    cases hs
  obtain ⟨hd, hfilters, hentity, hsatisfied⟩ :=
    Draft.filters_satisfied hmax hempty hstages hempty hnone rfl hrun
  obtain ⟨st, hst, hrows⟩ := hfilters.statement hd hdistinct
  have hcollection : d.collection = empty.collection := by
    obtain ⟨e, hlookup, he⟩ := hd.collection
    obtain ⟨e', hlookup', he'⟩ := hempty.collection
    rw [hentity, hlookup'] at hlookup
    rw [← he, ← he', Except.ok.inj hlookup]
  refine ⟨empty, st, hstart, hcollection, hst, fun V db given hindex => ?_⟩
  rw [← hcollection]
  refine ⟨_, hrows V db given, fun root => ?_⟩
  -- a row of the loops is an assignment, and that satisfies the draft as it does the conditions
  rw [Bool.not_eq_true', List.isEmpty_eq_false_iff_exists_mem]
  simp only [hd.mem_nested hindex hfilters, hsatisfied]
  constructor
  · rintro ⟨b, σ, hroot, ⟨-, hholds⟩, -⟩
    exact ⟨σ, hroot, hholds⟩
  · rintro ⟨σ, hroot, hholds⟩
    exact ⟨_, σ, hroot, ⟨Draft.satisfied_of_empty hstages _, hholds⟩, rfl⟩

/-- Filters commute: in another order they build as well or as little, and their query returns the
same root documents, in the order in which the collection has them. -/
theorem filters_commute (hmax : 1 ≤ m.settings.maxTraversalDepth)
    (hdistinct : m.settings.distinctTraversals = true) (entity : String) {cs cs' : List Condition}
    (hperm : cs.Perm cs') :
    ((∃ q, m.query entity (cs.map .filter) = .ok q) ↔
      ∃ q, m.query entity (cs'.map .filter) = .ok q) ∧
    ∀ q q', m.query entity (cs.map .filter) = .ok q → m.query entity (cs'.map .filter) = .ok q' →
      ∃ st st', m.statement q = .ok st ∧ m.statement q' = .ok st' ∧
        ∀ (V : Type) (db : Database V) (given : String → V),
          (∀ i j, db.reached i = db.reached j) → st.rows db given = st'.rows db given ∧
            (st.rows db given).Sublist (db.documents q.collection) := by
  constructor
  · simp only [query_filters_ok_iff hmax, hperm.mem_iff]
  · intro q q' hq hq'
    obtain ⟨empty, st, hstart, hcollection, hst, hrows⟩ := filter_rows hmax hdistinct hq
    obtain ⟨empty', st', hstart', -, hst', hrows'⟩ := filter_rows hmax hdistinct hq'
    obtain rfl := Except.ok.inj (hstart.symm.trans hstart')
    refine ⟨st, st', hst, hst', fun V db given hindex => ?_⟩
    obtain ⟨keep, hkept, hkeep⟩ := hrows V db given hindex
    obtain ⟨keep', hkept', hkeep'⟩ := hrows' V db given hindex
    have hsame : keep = keep' := by
      funext root
      rw [Bool.eq_iff_iff, hkeep, hkeep']
      simp only [hperm.mem_iff]
    rw [hkept, hkept', hsame, hcollection]
    exact ⟨rfl, List.filter_sublist⟩

/-- Accounts of grown owners with a young holder: the order of the filters numbers the traversals. -/
theorem filters_commute_bank :
    let grown := .compare "owner.age" .greaterThanOrEqual (.parameter "adult")
    let young := .compare "holders.age" .lessThan (.literal (.int 30))
    ∃ q q', Bank.mapper.query "Account" [.filter grown, .filter young] = .ok q ∧
      Bank.mapper.query "Account" [.filter young, .filter grown] = .ok q' ∧
      q.traversals.map (·.relationship) = ["owner", "holders"] ∧
      q'.traversals.map (·.relationship) = ["holders", "owner"] ∧
      ∃ st st', Bank.mapper.statement q = .ok st ∧ Bank.mapper.statement q' = .ok st' ∧
        ∀ (V : Type) (db : Database V) (given : String → V),
          (∀ i j, db.reached i = db.reached j) → st.rows db given = st'.rows db given ∧
            (st.rows db given).Sublist (db.documents q.collection) := by
  intro grown young
  have hmax : 1 ≤ Bank.mapper.settings.maxTraversalDepth := by decide +kernel
  have hdistinct : Bank.mapper.settings.distinctTraversals = true := by decide +kernel
  have hfirst : (match Bank.mapper.query "Account" [.filter grown, .filter young] with
      | .ok q => decide (q.traversals.map (·.relationship) = ["owner", "holders"])
      | .error _ => false) = true := by decide +kernel
  have hsecond : (match Bank.mapper.query "Account" [.filter young, .filter grown] with
      | .ok q => decide (q.traversals.map (·.relationship) = ["holders", "owner"])
      | .error _ => false) = true := by decide +kernel
  have hcommute := filters_commute hmax hdistinct "Account" (List.Perm.swap young grown [])
  cases hq : Bank.mapper.query "Account" [.filter grown, .filter young] with
  | error _ => simp [hq] at hfirst
  | ok q =>
    cases hq' : Bank.mapper.query "Account" [.filter young, .filter grown] with
    | error _ => simp [hq'] at hsecond
    | ok q' =>
      rw [hq] at hfirst
      rw [hq'] at hsecond
      exact ⟨q, q', rfl, rfl, of_decide_eq_true hfirst, of_decide_eq_true hsecond,
        hcommute.2 q q' hq hq'⟩

end Mapper

end GraphMapper
