import GraphMapper.Proofs.Relation.Hops

/-!
# What a topology represents

A topology that comes from resolving a schema holds the relationships of that schema and nothing else
(`Topology.Represents`): every relationship is at exactly one place, and there both look-ups find it.
Two declarations share an association when they name the same graph and lead in opposite directions,
and of these as many are brought together as can be (`Topology.Resolves.countP_joins`).
-/

namespace GraphMapper

open Outcome

/-- How many relationships of an entity lead to a target in a graph that they name. -/
def Entity.leading (e : Entity) (graph target : String) : Nat :=
  e.relationships.countP fun r => r.graph == some graph && r.target == target

/-- Whether an association joins declarations of a graph that lead from one entity to the other and
back. -/
def Association.joins (a : Association) (graph entity other : String) : Bool :=
  a.isBidirectional && a.graph == graph &&
    ((a.forward.source == entity && a.forward.target == other) ||
      (a.forward.source == other && a.forward.target == entity))

/-- The topology holds the relationships of the schema, each at one place, in as many pairs as there
can be. -/
structure Topology.Represents (t : Topology) (s : Schema) : Prop where
  /-- A relationship is a link of one association, once, and both look-ups find it there. -/
  declaration : ∀ e ∈ s.all, ∀ r ∈ e.relationships, ∃ p : Place,
    t.places.filter (fun q => q.link.member = ⟨e.name, r.name⟩) = [p] ∧
      p.link.target = r.target ∧ p.link.cardinality = r.cardinality ∧
      t.association e.name r.name = .ok p.association ∧
      t.hop e.name r.name = .ok ⟨p, .outbound⟩
  /-- Every link is a relationship of the schema. -/
  link : ∀ p ∈ t.places, ∃ e ∈ s.all, ∃ r ∈ e.relationships, p.link.member = ⟨e.name, r.name⟩
  /-- The index of declared names leads to the link of the name. -/
  declared : ∀ entry ∈ t.declared, entry.2 ∈ t.places ∧ entry.2.link.member = entry.1
  /-- The index of related names leads to the link of the relationship that gives the name. -/
  related : ∀ entry ∈ t.related, entry.2 ∈ t.places ∧ entry.2.link.target = entry.1.entity ∧
    ∃ e ∈ s.all, ∃ r ∈ e.relationships, entry.2.link.member = ⟨e.name, r.name⟩ ∧
      r.relatedName = some entry.1.name
  /-- An association has one link, or two that lead in opposite directions of a graph that both
  relationships name. -/
  association : ∀ a ∈ t.associations, a.links = [a.forward] ∨
    ∃ l, a.links = [a.forward, l] ∧ l.source = a.forward.target ∧ l.target = a.forward.source ∧
      ∀ e ∈ s.all, ∀ r ∈ e.relationships,
        (⟨e.name, r.name⟩ : Member) ∈ [a.forward.member, l.member] → r.graph = some a.graph
  /-- No collection is used for two purposes. -/
  collections : (t.links.map (·.collection) ++ s.collections).Nodup
  /-- The partner is what the association holds beside the own link. -/
  partner : ∀ h : Hop, h.place ∈ t.places →
    h.association.links.erase h.link = h.partner.toList
  /-- No two declarations that could be brought together are left alone. -/
  maximum : ∀ graph, ∀ e ∈ s.all, ∀ other ∈ s.all,
    t.associations.countP (·.joins graph e.name other.name) =
      if e.name = other.name then e.leading graph e.name / 2
      else min (e.leading graph other.name) (other.leading graph e.name)

/-! ## The number of pairs -/

/-- When the members of a list are told apart by a name, what only one of them contributes to a
concatenation is counted there. -/
theorem count_flatMap_of_mem {α β γ : Type} [DecidableEq β] {name : α → γ} {f : α → List β}
    {as : List α} (hnodup : (as.map name).Nodup) {a : α} (ha : a ∈ as) {b : β}
    (hb : ∀ a' ∈ as, b ∈ f a' → name a' = name a) :
    (as.flatMap f).count b = (f a).count b := by
  induction as with
  | nil => cases ha
  | cons a' rest ih =>
    rw [List.map_cons, List.nodup_cons] at hnodup
    rw [List.flatMap_cons, List.count_append]
    rcases List.mem_cons.mp ha with rfl | ha
    · have hrest : (rest.flatMap f).count b = 0 := by
        rw [List.count_eq_zero, List.mem_flatMap]
        rintro ⟨a', ha', hmem⟩
        have hsame := hb a' (List.mem_cons_of_mem _ ha') hmem
        exact hnodup.1 (hsame ▸ List.mem_map_of_mem ha')
      rw [hrest, Nat.add_zero]
    · have hfirst : (f a').count b = 0 := by
        rw [List.count_eq_zero]
        intro hmem
        have hsame := hb a' List.mem_cons_self hmem
        exact hnodup.1 (hsame ▸ List.mem_map_of_mem ha)
      rw [hfirst, Nat.zero_add]
      exact ih hnodup.2 ha fun a'' ha'' => hb a'' (List.mem_cons_of_mem _ ha'')

/-- The declarations of a course are the relationships of its source that take it. -/
theorem Schema.WellFormed.count_course {s : Schema} (hs : s.WellFormed) {ds : List Declaration}
    (hds : s.declarations = .ok ds) {e : Entity} (he : e ∈ s.all) (graph target : String) :
    (ds.map Declaration.course).count ⟨some graph, e.name, target⟩ = e.leading graph target := by
  have hcourses := Schema.map_declarations
    (fun e r => (⟨r.graph, e.name, r.target⟩ : Course)) hds
  change ds.map Declaration.course = _ at hcourses
  have hown : ∀ e' ∈ s.all, (⟨some graph, e.name, target⟩ : Course) ∈
      e'.sortedRelationships.map (fun r => ⟨r.graph, e'.name, r.target⟩) → e'.name = e.name := by
    intro e' _ hmem
    obtain ⟨r, -, heq⟩ := List.mem_map.mp hmem
    exact congrArg Course.source heq
  rw [hcourses, count_flatMap_of_mem hs.names_nodup he hown,
    (e.sortedRelationships_perm.map _).count_eq, List.count, List.countP_map, Entity.leading]
  apply List.countP_congr
  intro r _
  simp

theorem Association.joins_ofPair {ds : List Declaration} {s : Schema} (hs : s.WellFormed)
    (hds : s.declarations = .ok ds) {pair : Declaration × Option Declaration}
    (hpair : pair ∈ pairUp ds) (graph entity other : String) :
    (ofPair pair).joins graph entity other = true ↔
      (pair.2.isSome && (pair.1.course == ⟨some graph, entity, other⟩ ||
        pair.1.course == Course.back ⟨some graph, entity, other⟩)) = true := by
  obtain ⟨d, partner⟩ := pair
  cases partner with
  | none => simp [joins, ofPair, isBidirectional]
  | some d' =>
    obtain ⟨hsome, -⟩ := Declaration.pairsWith_iff.mp (pairsWith_of_mem_pairUp hpair)
    obtain ⟨hint, hhint⟩ := Option.isSome_iff_exists.mp hsome
    have hd : d ∈ ds := (pairUp_perm ds).mem_iff.mp
      (List.mem_flatMap.mpr ⟨_, hpair, List.mem_cons_self⟩)
    have htarget : d.target.name = d.relationship.target :=
      (hs.entity?_eq_some_iff.mp ((Schema.mem_declarations_iff hds).mp hd).2.2).2
    have hgraph : d.relationship.graph = some hint := hhint
    simp only [joins, ofPair, isBidirectional, Declaration.graph, Declaration.link,
      Declaration.course, Course.back, hgraph, htarget, Option.map_some, Option.isSome_some,
      Option.getD_some, Bool.true_and, Bool.and_eq_true, Bool.or_eq_true, beq_iff_eq,
      Course.mk.injEq, Option.some.injEq]
    rw [← and_or_left]

/-- As many associations join two entities as there are declarations to be joined. -/
theorem Topology.Resolves.countP_joins {t : Topology} {s : Schema} {ds : List Declaration}
    (ht : t.Resolves s ds) (hs : s.WellFormed) (hds : s.declarations = .ok ds) (graph : String)
    {e other : Entity} (he : e ∈ s.all) (hother : other ∈ s.all) :
    t.associations.countP (·.joins graph e.name other.name) =
      if e.name = other.name then e.leading graph e.name / 2
      else min (e.leading graph other.name) (other.leading graph e.name) := by
  let course : Course := ⟨some graph, e.name, other.name⟩
  have hpairs : t.associations.countP (·.joins graph e.name other.name) =
      pairsOn course (pairUp ds) := by
    rw [ht.associations_eq, List.countP_map, pairsOn]
    apply List.countP_congr
    intro pair hpair
    exact Association.joins_ofPair hs hds hpair graph e.name other.name
  have hback : course = course.back ↔ e.name = other.name := by
    simp [course, Course.back, eq_comm]
  rw [hpairs, pairsOn_pairUp rfl]
  simp only [hback]
  split
  · next hsame =>
    have hcourse : course = ⟨some graph, e.name, e.name⟩ := by simp [course, hsame]
    rw [hcourse, hs.count_course hds he]
  · rw [hs.count_course hds he, show course.back = ⟨some graph, other.name, e.name⟩ from rfl,
      hs.count_course hds hother]

/-! ## Places, links and partners -/

/-- A member that is told apart from the others by a view is the only one of its view. -/
theorem filter_eq_singleton {α β : Type} [DecidableEq β] {view : α → β} {as : List α}
    (hnodup : (as.map view).Nodup) {a : α} (ha : a ∈ as) :
    as.filter (fun x => view x = view a) = [a] := by
  induction as with
  | nil => cases ha
  | cons x rest ih =>
    rw [List.map_cons, List.nodup_cons] at hnodup
    rcases List.mem_cons.mp ha with rfl | ha
    · have hrest : rest.filter (fun x => view x = view a) = [] := by
        rw [List.filter_eq_nil_iff]
        intro x hx hsame
        exact hnodup.1 (of_decide_eq_true hsame ▸ List.mem_map_of_mem hx)
      rw [List.filter_cons_of_pos (by simp), hrest]
    · have hother : view x ≠ view a := fun hsame => hnodup.1 (hsame ▸ List.mem_map_of_mem ha)
      rw [List.filter_cons_of_neg (by simpa using hother)]
      exact ih hnodup.2 ha

namespace Topology.Resolves

variable {t : Topology} {s : Schema} {ds : List Declaration} (ht : t.Resolves s ds)
include ht

/-- The own link and the partner are all that an association holds. -/
theorem erase_link {h : Hop} (hp : h.place ∈ t.places) :
    h.association.links.erase h.link = h.partner.toList := by
  obtain ⟨⟨a, l⟩, d⟩ := h
  obtain ⟨ha, hl⟩ := mem_places.mp hp
  obtain ⟨graph, origin, forward, reverse⟩ := a
  simp only [Association.links, Hop.association, Hop.link, Hop.partner, List.mem_cons,
    Option.mem_toList] at hl ⊢
  cases reverse with
  | none =>
    obtain rfl : l = forward := by simpa using hl
    simp
  | some other =>
    have hne : forward.collection ≠ other.collection := by
      have hnodup := ht.links_nodup
      rw [links, List.map_flatMap] at hnodup
      have hown := (List.nodup_flatMap.mp hnodup).1 _ ha
      simpa [Association.links] using hown
    have hne' : forward ≠ other := fun hsame => hne (hsame ▸ rfl)
    rcases hl with rfl | hl
    · simp [hne.symm]
    · obtain rfl := Option.some.inj hl
      simp [hne, hne']

/-- The relationship behind a link, in the entity that declares it. -/
theorem relationship_of_place (hds : s.declarations = .ok ds) {p : Place} (hp : p ∈ t.places) :
    ∃ e ∈ s.all, ∃ r ∈ e.relationships, p.link.member = ⟨e.name, r.name⟩ := by
  obtain ⟨d, hd, hlink⟩ := ht.declaration_of_place hp
  obtain ⟨he, hr, -⟩ := (Schema.mem_declarations_iff hds).mp hd
  exact ⟨d.source, he, d.relationship, hr, congrArg Link.member hlink⟩

/-- A relationship has one place, with its own link. -/
theorem place_of_relationship (hs : s.WellFormed) (hds : s.declarations = .ok ds) {e : Entity}
    (he : e ∈ s.all) {r : Relationship} (hr : r ∈ e.relationships) :
    ∃ p ∈ t.places, p.link.member = ⟨e.name, r.name⟩ ∧ p.link.target = r.target ∧
      p.link.cardinality = r.cardinality := by
  obtain ⟨d, hd, rfl, rfl⟩ := Schema.exists_declaration hds he hr
  obtain ⟨p, hp, hlink⟩ := ht.place_of_declaration hd
  have htarget : d.target.name = d.relationship.target :=
    (hs.entity?_eq_some_iff.mp ((Schema.mem_declarations_iff hds).mp hd).2.2).2
  refine ⟨p, hp, ?_, ?_, ?_⟩
  · rw [hlink]
    rfl
  · rw [hlink]
    exact htarget
  · rw [hlink]
    rfl

/-- The two links of an association lead in opposite directions, and both relationships name its
graph. -/
theorem reverse_link (hs : s.WellFormed) (hds : s.declarations = .ok ds) {a : Association}
    (ha : a ∈ t.associations) {l : Link} (hl : a.reverse = some l) :
    l.source = a.forward.target ∧ l.target = a.forward.source ∧
      ∀ e ∈ s.all, ∀ r ∈ e.relationships,
        (⟨e.name, r.name⟩ : Member) ∈ [a.forward.member, l.member] → r.graph = some a.graph := by
  rw [ht.associations_eq] at ha
  obtain ⟨⟨d, partner⟩, hpair, rfl⟩ := List.mem_map.mp ha
  obtain ⟨d', rfl, rfl⟩ := Option.map_eq_some_iff.mp hl
  obtain ⟨hsome, hcourse⟩ := Declaration.pairsWith_iff.mp (pairsWith_of_mem_pairUp hpair)
  obtain ⟨hgraph, hsource, htarget⟩ := Course.mk.inj hcourse
  have hmem : ∀ x ∈ [d, d'], x ∈ ds := fun x hx =>
    (pairUp_perm ds).mem_iff.mp (List.mem_flatMap.mpr ⟨_, hpair, hx⟩)
  have hname : ∀ x ∈ [d, d'], x.target.name = x.relationship.target := fun x hx =>
    (hs.entity?_eq_some_iff.mp ((Schema.mem_declarations_iff hds).mp (hmem x hx)).2.2).2
  obtain ⟨hint, hhint⟩ := Option.isSome_iff_exists.mp hsome
  have hown : d.relationship.graph = some hint := hhint
  refine ⟨hsource.trans (hname d (by simp)).symm, (hname d' (by simp)).trans htarget, ?_⟩
  intro e he r hr hmember
  -- the members of a schema are declared once, so the relationship is one of the two
  obtain ⟨x, hx, rfl, rfl⟩ := Schema.exists_declaration hds he hr
  have hone : x = d ∨ x = d' := by
    have hinj := List.inj_on_of_nodup_map (s.members_nodup hs hds)
    rcases List.mem_cons.mp hmember with heq | hmember
    · exact Or.inl (hinj hx (hmem d (by simp)) heq)
    · exact Or.inr (hinj hx (hmem d' (by simp)) (List.mem_singleton.mp hmember))
  have hgraph_eq : (Association.ofPair (d, some d')).graph = hint := by
    simp [Association.ofPair, Declaration.graph, hown]
  rw [hgraph_eq]
  rcases hone with rfl | rfl
  · exact hown
  · exact hgraph.trans hhint

/-- A name that the index of related names holds was given by a relationship that leads to the entity
of the name. -/
theorem related_entry (hds : s.declarations = .ok ds) {entry : Member × Place}
    (hentry : entry ∈ t.related) :
    entry.2 ∈ t.places ∧ entry.2.link.target = entry.1.entity ∧
      ∃ e ∈ s.all, ∃ r ∈ e.relationships, entry.2.link.member = ⟨e.name, r.name⟩ ∧
        r.relatedName = some entry.1.name := by
  have hfound := (Dict.find?_eq_some_iff ht.related_sorted.keys_nodup).mpr hentry
  obtain ⟨d, hd, hname, htarget, hplace⟩ := (ht.related_iff _ _).mp hfound
  obtain ⟨hp, hmember⟩ := (ht.declared_iff _ _).mp hplace
  obtain ⟨he, hr, -⟩ := (Schema.mem_declarations_iff hds).mp hd
  obtain ⟨p, hp', hlink⟩ := ht.place_of_declaration hd
  have hsame : Dict.find? t.declared d.member = some p := by
    rw [ht.declared_iff, hlink]
    exact ⟨hp', rfl⟩
  have heq : entry.2 = p := Option.some.inj (hplace.symm.trans hsame)
  refine ⟨hp, ?_, d.source, he, d.relationship, hr, hmember, hname⟩
  rw [heq, hlink]
  exact htarget

/-- What a registered schema resolves to represents it. -/
theorem represents (hs : s.WellFormed) (hds : s.declarations = .ok ds) : t.Represents s := by
  constructor
  case declaration =>
    intro e he r hr
    obtain ⟨p, hp, hmember, htarget, hcardinality⟩ := ht.place_of_relationship hs hds he hr
    have honly := filter_eq_singleton (members_nodup hs hds ht.links_perm) hp
    have hfound : Dict.find? t.declared ⟨e.name, r.name⟩ = some p :=
      (ht.declared_iff _ _).mpr ⟨hp, hmember⟩
    rw [hmember] at honly
    refine ⟨p, honly, htarget, hcardinality, ?_, ?_⟩
    · rw [Topology.association, hfound]
    · rw [hop, hop?, hfound]
  case link => exact fun p hp => ht.relationship_of_place hds hp
  case declared =>
    intro entry hentry
    have hfound := (Dict.find?_eq_some_iff ht.declared_sorted.keys_nodup).mpr hentry
    exact (ht.declared_iff _ _).mp hfound
  case related => exact fun entry hentry => ht.related_entry hds hentry
  case association =>
    intro a ha
    cases hreverse : a.reverse with
    | none =>
      left
      rw [Association.links, hreverse]
      rfl
    | some l =>
      right
      refine ⟨l, ?_, ht.reverse_link hs hds ha hreverse⟩
      rw [Association.links, hreverse]
      rfl
  case collections => exact ht.collections_nodup
  case partner => exact fun h hp => ht.erase_link hp
  case maximum => exact fun graph e he other hother => ht.countP_joins hs hds graph he hother

end Topology.Resolves

/-! ## Resolving -/

/-- Resolving a registered schema gives a topology that holds each of its relationships once and joins
as many of them as possible. -/
theorem Topology.ofSchema_represents {s : Schema} (hs : s.Registered) {t : Topology}
    (h : Topology.ofSchema s = .ok t) : t.Represents s := by
  obtain ⟨ds, hds, ht⟩ := Topology.ofSchema_resolves hs.wellFormed h
  exact ht.represents hs.wellFormed hds

theorem Topology.ofSchema_represents_bank :
    Bank.mapper.schema.Registered ∧
      Topology.ofSchema Bank.mapper.schema = .ok Bank.mapper.topology ∧
      Bank.mapper.topology.Represents Bank.mapper.schema :=
  ⟨Bank.mapper_resolved.registered, Bank.mapper_resolved.ofSchema,
    Topology.ofSchema_represents Bank.mapper_resolved.registered Bank.mapper_resolved.ofSchema⟩

end GraphMapper
