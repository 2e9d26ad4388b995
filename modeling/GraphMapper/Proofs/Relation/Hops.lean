import GraphMapper.Mutation.Edges
import GraphMapper.Proofs.Mapper

/-!
# Hops of a resolved mapper

The hops that a resolved topology finds are its places (`Topology.Resolves.place_of_hop`), and every
place is found again under its own declaration (`Topology.Resolves.hop_declared`).

A partner is the other link of the association, leads the other way, and has the hop's own link as
its partner. `Hop.opposite` is the hop as its target sees it; `Topology.Resolves.back_eq` says that
this is what `Topology.back` looks up.
-/

namespace GraphMapper

open Outcome

theorem Mapper.hopOf_eq_ok {m : Mapper} {source : Handle} {relation : String} {h : Hop}
    (hh : m.hopOf source relation = .ok h) :
    ∃ e, m.schema.ofCollection? source.collection = some e ∧
      m.topology.hop e.name relation = .ok h := by
  obtain ⟨e, he, hhop⟩ := bind_eq_ok.mp hh
  refine ⟨e, ?_, hhop⟩
  unfold Schema.ofCollection at he
  split at he
  · next e' hfound => rw [hfound, Except.ok.inj he]
  · cases he

/-! ## Partners -/

namespace Hop

variable {h : Hop} {l : Link}

theorem partner_mem (hl : h.partner = some l) : l ∈ h.association.links :=
  List.mem_of_find?_eq_some hl

theorem partner_collection_ne (hl : h.partner = some l) :
    l.collection ≠ h.link.collection := by
  have hne := List.find?_some hl
  simpa using hne

theorem mem_edgeCollections {entry : Direction × String} :
    entry ∈ h.edgeCollections ↔ entry = (h.direction, h.link.collection) ∨
      ∃ l, h.partner = some l ∧ entry = (h.direction.flip, l.collection) := by
  unfold edgeCollections
  cases h.partner with
  | none => simp
  | some l => simp

/-- A collection is followed in one direction only. -/
theorem direction_unique {d d' : Direction} {collection : String}
    (hd : (d, collection) ∈ h.edgeCollections) (hd' : (d', collection) ∈ h.edgeCollections) :
    d = d' := by
  rcases mem_edgeCollections.mp hd with heq | ⟨l, hl, heq⟩ <;>
    rcases mem_edgeCollections.mp hd' with heq' | ⟨l', hl', heq'⟩ <;>
    obtain ⟨rfl, hc⟩ := Prod.mk.inj heq <;> obtain ⟨rfl, hc'⟩ := Prod.mk.inj heq'
  · rfl
  · exact absurd (hc'.symm.trans hc) (partner_collection_ne hl')
  · exact absurd (hc.symm.trans hc') (partner_collection_ne hl)
  · rfl

/-- The hop as its target sees it: the declaration behind a related name, or the partner. -/
def opposite (h : Hop) : Option Hop :=
  match h.direction with
  | .inbound => some ⟨h.place, .outbound⟩
  | .outbound => h.partner.map fun l => ⟨⟨h.association, l⟩, .outbound⟩

/-- The entity at which the hop starts. -/
def origin (h : Hop) : String :=
  match h.direction with
  | .outbound => h.link.source
  | .inbound => h.link.target

end Hop

/-! ## Ends of links -/

/-- The entity at an end of the records of a link. -/
def Link.entityAt (l : Link) : Aql.EdgeEnd → String
  | .source => l.source
  | .target => l.target

/-- The document collection at an end of the records of a link. -/
def Link.collectionAt (l : Link) : Aql.EdgeEnd → String
  | .source => l.fromCollection
  | .target => l.toCollection

namespace Hop

variable {h : Hop}

/-- The collection in which the hop starts. -/
def sourceCollection (h : Hop) : String := h.link.collectionAt h.direction.ownEnd

theorem origin_eq : h.origin = h.link.entityAt h.direction.ownEnd := by
  unfold origin
  cases h.direction <;> rfl

theorem target_eq : h.target = h.link.entityAt h.direction.otherEnd := by
  unfold target
  cases h.direction <;> rfl

theorem targetCollection_eq : h.targetCollection = h.link.collectionAt h.direction.otherEnd := by
  unfold targetCollection
  cases h.direction <;> rfl

end Hop

/-! ## Hops of a resolved topology -/

namespace Topology.Resolves

variable {t : Topology} {s : Schema} {ds : List Declaration}

theorem link_mem {p : Place} (hp : p ∈ t.places) : p.link ∈ t.links :=
  t.map_link_places ▸ List.mem_map_of_mem hp

section

variable (ht : t.Resolves s ds)
include ht

/-- No two links share a collection. -/
theorem links_nodup : (t.links.map (·.collection)).Nodup :=
  (List.nodup_append.mp ht.collections_nodup).1

/-- A place is found under the member that declares its link. -/
theorem hop_declared {p : Place} (hp : p ∈ t.places) :
    t.hop p.link.source p.link.relationship = .ok ⟨p, .outbound⟩ := by
  have hfound : Dict.find? t.declared ⟨p.link.source, p.link.relationship⟩ = some p :=
    (ht.declared_iff _ _).mpr ⟨hp, rfl⟩
  rw [hop, hop?, hfound]

/-- Every link is declared. -/
theorem declaration_of_place {p : Place} (hp : p ∈ t.places) : ∃ d ∈ ds, p.link = d.link := by
  obtain ⟨d, hd, heq⟩ := List.mem_map.mp (ht.links_perm.mem_iff.mp (link_mem hp))
  exact ⟨d, hd, heq.symm⟩

/-- Every declaration has a place. -/
theorem place_of_declaration {d : Declaration} (hd : d ∈ ds) : ∃ p ∈ t.places, p.link = d.link := by
  have hlink : d.link ∈ t.places.map Place.link :=
    t.map_link_places ▸ ht.links_perm.mem_iff.mpr (List.mem_map_of_mem hd)
  exact List.mem_map.mp hlink

/-- A hop is at a place of the topology and starts at the entity that it was looked up for. -/
theorem place_of_hop {entity name : String} {h : Hop} (hh : t.hop entity name = .ok h) :
    h.place ∈ t.places ∧ h.origin = entity := by
  unfold hop hop? at hh
  cases hdeclared : Dict.find? t.declared ⟨entity, name⟩ with
  | some p =>
    rw [hdeclared] at hh
    obtain rfl := Except.ok.inj hh
    obtain ⟨hp, hmember⟩ := (ht.declared_iff _ _).mp hdeclared
    exact ⟨hp, congrArg Member.entity hmember⟩
  | none =>
    rw [hdeclared] at hh
    cases hrelated : Dict.find? t.related ⟨entity, name⟩ with
    | none =>
      rw [hrelated] at hh
      cases hh
    | some p =>
      rw [hrelated] at hh
      obtain rfl := Except.ok.inj hh
      obtain ⟨d, hd, -, htarget, hplace⟩ := (ht.related_iff _ _).mp hrelated
      obtain ⟨q, hq, hlink⟩ := ht.place_of_declaration hd
      have hsame : Dict.find? t.declared d.member = some q := by
        rw [ht.declared_iff, hlink]
        exact ⟨hq, rfl⟩
      obtain rfl : p = q := Option.some.inj (hplace.symm.trans hsame)
      exact ⟨hq, (congrArg Link.target hlink).trans htarget⟩

/-- Places that share a collection are the same. -/
theorem eq_of_collection_eq {p q : Place} (hp : p ∈ t.places) (hq : q ∈ t.places)
    (h : p.link.collection = q.link.collection) : p = q := by
  have hlink : p.link = q.link :=
    List.inj_on_of_nodup_map ht.links_nodup (link_mem hp) (link_mem hq) h
  have hfound := (ht.declared_iff _ _).mpr ⟨hp, rfl⟩
  have hfound' := (ht.declared_iff _ _).mpr ⟨hq, rfl⟩
  rw [hlink] at hfound
  exact Option.some.inj (hfound.symm.trans hfound')

/-- The links of an association are the own one and the partner. -/
theorem eq_link_or_partner {h : Hop} (hp : h.place ∈ t.places) {l : Link}
    (hl : l ∈ h.association.links) : l = h.link ∨ h.partner = some l := by
  obtain ⟨ha, hown⟩ := mem_places.mp hp
  have hcollection : ∀ l' ∈ h.association.links,
      l'.collection = h.link.collection → l' = h.link := fun l' hl' heq =>
    congrArg Place.link (ht.eq_of_collection_eq (p := ⟨h.association, l'⟩)
      (mem_places.mpr ⟨ha, hl'⟩) hp heq)
  by_cases heq : l = h.link
  · exact Or.inl heq
  right
  have hne : (l.collection != h.link.collection) = true := by
    simpa using fun hc => heq (hcollection l hl hc)
  cases hpartner : h.partner with
  | none =>
    exact absurd hne (by simpa using (List.find?_eq_none.mp hpartner) l hl)
  | some l' =>
    have hl' := Hop.partner_mem hpartner
    have hne' : l' ≠ h.link := fun hsame => Hop.partner_collection_ne hpartner (hsame ▸ rfl)
    have hown' : h.link ∈ h.association.links := hown
    simp only [Association.links, List.mem_cons, Option.mem_toList] at hl hl' hown'
    -- of at most two links, one is the own link and neither `l` nor `l'` is
    grind

omit ht in
theorem partner_place {h : Hop} (hp : h.place ∈ t.places) {l : Link} (hl : h.partner = some l) :
    (⟨h.association, l⟩ : Place) ∈ t.places :=
  mem_places.mpr ⟨(mem_places.mp hp).1, Hop.partner_mem hl⟩

/-- The partner's partner is the own link. -/
theorem partner_partner {h : Hop} (hp : h.place ∈ t.places) {l : Link} (hl : h.partner = some l)
    (d : Direction) : Hop.partner ⟨⟨h.association, l⟩, d⟩ = some h.link := by
  have hown : h.link ∈ h.association.links := (mem_places.mp hp).2
  rcases ht.eq_link_or_partner (h := ⟨⟨h.association, l⟩, d⟩) (partner_place hp hl) hown with
    heq | hpartner
  · exact absurd (congrArg Link.collection heq).symm (Hop.partner_collection_ne hl)
  · exact hpartner

/-- The records of a link end in the collections of the entities that it names. -/
theorem exists_entityAt (hs : s.WellFormed) (hds : s.declarations = .ok ds) {l : Link}
    (hl : l ∈ t.links) (stop : Aql.EdgeEnd) :
    ∃ e ∈ s.all, e.name = l.entityAt stop ∧ e.collectionName = l.collectionAt stop := by
  obtain ⟨d, hd, rfl⟩ := List.mem_map.mp (ht.links_perm.mem_iff.mp hl)
  obtain ⟨hsource, -, hfound⟩ := (Schema.mem_declarations_iff hds).mp hd
  cases stop with
  | source => exact ⟨d.source, hsource, rfl, rfl⟩
  | target => exact ⟨d.target, (hs.entity?_eq_some_iff.mp hfound).1, rfl, rfl⟩

/-- A link has the collection of an entity at an end where it names that entity, and only there. -/
theorem collectionAt_eq_iff (hs : s.WellFormed) (hds : s.declarations = .ok ds) {l : Link}
    (hl : l ∈ t.links) {e : Entity} (he : e ∈ s.all) {stop : Aql.EdgeEnd} :
    l.collectionAt stop = e.collectionName ↔ l.entityAt stop = e.name := by
  obtain ⟨e', he', hname, hcollection⟩ := ht.exists_entityAt hs hds hl stop
  rw [← hname, ← hcollection]
  constructor
  · intro heq
    rw [hs.collectionName_injective he' he heq]
  · intro heq
    rw [List.inj_on_of_nodup_map hs.names_nodup he' he heq]

/-- The partner starts in the collection that the own link leads into. -/
theorem partner_fromCollection (hs : s.WellFormed) (hds : s.declarations = .ok ds) {h : Hop}
    (hp : h.place ∈ t.places) {l : Link} (hl : h.partner = some l) :
    l.fromCollection = h.link.toCollection := by
  obtain ⟨ha, hown⟩ := mem_places.mp hp
  have hother := Hop.partner_mem hl
  have hne : l ≠ h.link := fun hsame => Hop.partner_collection_ne hl (hsame ▸ rfl)
  have hown' : h.link ∈ h.association.links := hown
  rw [Association.links, List.mem_cons, Option.mem_toList] at hother hown'
  rcases hother with hforward | hreverse <;> rcases hown' with hforward' | hreverse'
  · exact absurd (hforward.trans hforward'.symm) hne
  · obtain ⟨d, hd, d', hd', hpair, heq, heq'⟩ := ht.reverse_pairs _ ha _ hreverse'
    rw [hforward, heq', show h.association.forward = d.link from heq]
    exact (hs.collections_of_pairsWith hds hd hd' hpair).2.symm
  · obtain ⟨d, hd, d', hd', hpair, heq, heq'⟩ := ht.reverse_pairs _ ha _ hreverse
    rw [hforward', heq', show h.association.forward = d.link from heq]
    exact (hs.collections_of_pairsWith hds hd hd' hpair).1.symm
  · exact absurd (Option.some.inj (hreverse.symm.trans hreverse')) hne

/-- The partner leads back into the collection in which the own link starts. -/
theorem partner_toCollection (hs : s.WellFormed) (hds : s.declarations = .ok ds) {h : Hop}
    (hp : h.place ∈ t.places) {l : Link} (hl : h.partner = some l) :
    l.toCollection = h.link.fromCollection :=
  (ht.partner_fromCollection hs hds (h := ⟨⟨h.association, l⟩, h.direction⟩) (partner_place hp hl)
    (ht.partner_partner hp hl h.direction)).symm

/-- The collections that a hop follows are those of links between the collections that it joins. -/
theorem link_of_edgeCollections (hs : s.WellFormed) (hds : s.declarations = .ok ds) {h : Hop}
    (hp : h.place ∈ t.places) {entry : Direction × String} (hentry : entry ∈ h.edgeCollections) :
    ∃ l ∈ t.links, l.collection = entry.2 ∧ l.collectionAt entry.1.ownEnd = h.sourceCollection ∧
      l.collectionAt entry.1.otherEnd = h.targetCollection := by
  rw [Hop.targetCollection_eq, Hop.sourceCollection]
  rcases Hop.mem_edgeCollections.mp hentry with rfl | ⟨l, hl, rfl⟩
  · exact ⟨h.link, link_mem hp, rfl, rfl, rfl⟩
  · have hstart := ht.partner_fromCollection hs hds hp hl
    have hstop := ht.partner_toCollection hs hds hp hl
    refine ⟨l, link_mem (partner_place hp hl), rfl, ?_⟩
    cases h.direction with
    | outbound => exact ⟨hstop, hstart⟩
    | inbound => exact ⟨hstart, hstop⟩

/-- The hop back starts where the hop leads. -/
theorem opposite_sourceCollection (hs : s.WellFormed) (hds : s.declarations = .ok ds) {h b : Hop}
    (hp : h.place ∈ t.places) (hb : h.opposite = some b) :
    b.place ∈ t.places ∧ b.sourceCollection = h.targetCollection := by
  obtain ⟨place, direction⟩ := h
  cases direction with
  | inbound =>
    obtain rfl := Option.some.inj hb
    exact ⟨hp, rfl⟩
  | outbound =>
    obtain ⟨l, hl, rfl⟩ := Option.map_eq_some_iff.mp hb
    exact ⟨partner_place hp hl, ht.partner_fromCollection hs hds hp hl⟩

/-- What is looked up as the hop back is the opposite hop. -/
theorem back_eq {h : Hop} (hp : h.place ∈ t.places) : t.back h = .ok h.opposite := by
  obtain ⟨place, direction⟩ := h
  cases direction with
  | inbound =>
    have hback := ht.hop_declared hp
    simp only [back, Hop.link, hback, Hop.opposite]
    rfl
  | outbound =>
    simp only [back, Hop.opposite]
    cases hpartner : Hop.partner ⟨place, .outbound⟩ with
    | none => rfl
    | some l =>
      have hback := ht.hop_declared (partner_place hp hpartner)
      simp only [hback]
      rfl

/-- The hop back follows the same collections, each the other way. -/
theorem mem_edgeCollections_opposite {h b : Hop} (hp : h.place ∈ t.places)
    (hb : h.opposite = some b) {d : Direction} {collection : String} :
    (d, collection) ∈ b.edgeCollections ↔ (d.flip, collection) ∈ h.edgeCollections := by
  obtain ⟨place, direction⟩ := h
  cases direction with
  | inbound =>
    obtain rfl := Option.some.inj hb
    have hsame : Hop.partner ⟨place, .outbound⟩ = Hop.partner ⟨place, .inbound⟩ := rfl
    rw [Hop.mem_edgeCollections, Hop.mem_edgeCollections, hsame]
    cases d <;> simp [Direction.flip, Hop.link]
  | outbound =>
    obtain ⟨l, hl, rfl⟩ := Option.map_eq_some_iff.mp hb
    rw [Hop.mem_edgeCollections, Hop.mem_edgeCollections, hl, ht.partner_partner hp hl]
    cases d <;> simp [Direction.flip, Hop.link]

end

end Topology.Resolves

theorem Mapper.Resolved.place_of_hopOf {m : Mapper} (hm : m.Resolved) {source : Handle}
    {relation : String} {h : Hop} (hh : m.hopOf source relation = .ok h) :
    h.place ∈ m.topology.places := by
  obtain ⟨ds, -, ht⟩ := hm.topology
  obtain ⟨e, -, hhop⟩ := Mapper.hopOf_eq_ok hh
  exact (ht.place_of_hop hhop).1

/-- A document lies where its hops start. -/
theorem Mapper.Resolved.sourceCollection_eq {m : Mapper} (hm : m.Resolved) {source : Handle}
    {relation : String} {h : Hop} (hh : m.hopOf source relation = .ok h) :
    source.collection = h.sourceCollection := by
  obtain ⟨ds, hds, ht⟩ := hm.topology
  obtain ⟨e, he, hhop⟩ := Mapper.hopOf_eq_ok hh
  obtain ⟨hmem, hcollection⟩ := hm.wellFormed.ofCollection?_eq_some_iff.mp he
  obtain ⟨hp, horigin⟩ := ht.place_of_hop hhop
  rw [Hop.origin_eq] at horigin
  rw [← hcollection, Hop.sourceCollection]
  have hl := Topology.Resolves.link_mem hp
  exact ((ht.collectionAt_eq_iff hm.wellFormed hds hl hmem).mpr horigin).symm

/-- A document whose hop is followed under a related name lies where the link leads. -/
theorem Mapper.Resolved.source_collection {m : Mapper} (hm : m.Resolved) {source : Handle}
    {relation : String} {h : Hop} (hh : m.hopOf source relation = .ok h)
    (hd : h.direction = .inbound) : source.collection = h.link.toCollection := by
  rw [hm.sourceCollection_eq hh, Hop.sourceCollection, hd]
  rfl

end GraphMapper
