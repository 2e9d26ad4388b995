import GraphMapper.Proofs.Mutation.SingleValued
import GraphMapper.Proofs.Relation.Names
import GraphMapper.Proofs.Relation.Represented

/-!
# Both ends of a relationship

A connection is seen from both of its ends, whichever declaration has stored it. The two declarations of
an association read the same pairs turned around (`Topology.Resolves.mirrors_partner`), and so do a
declaration and the related name that it gives to its target (`Topology.Resolves.mirrors_related`). A
related name therefore reads what the other declaration of its entity reads
(`Topology.Resolves.readsAlike_related`). The entities at the two ends may be the same one.
-/

namespace GraphMapper

open Outcome

namespace Hop

/-- Whatever is stored, the hops lead along the same connections in opposite directions. -/
def Mirrors (h b : Hop) : Prop :=
  ∀ (store : EdgeStore) (x y : String), h.Reads store x y ↔ b.Reads store y x

/-- Whatever is stored, the hops lead along the same connections in the same direction. -/
def ReadsAlike (h b : Hop) : Prop :=
  ∀ (store : EdgeStore) (x y : String), h.Reads store x y ↔ b.Reads store x y

end Hop

/-- Both ends of the relationships of a schema see the same connections. -/
structure Topology.Mirrored (t : Topology) (s : Schema) : Prop where
  /-- The two declarations of an association see each other's connections. -/
  partner : ∀ a ∈ t.associations, ∀ l ∈ a.links, ∀ l' ∈ a.links, l ≠ l' → ∃ h b,
    t.hop l.source l.relationship = .ok h ∧ t.hop l'.source l'.relationship = .ok b ∧ h.Mirrors b
  /-- A related name sees the connections of the relationship that gives it. -/
  related : ∀ e ∈ s.all, ∀ r ∈ e.relationships, ∀ name ∈ r.relatedName, ∃ h b,
    t.hop e.name r.name = .ok h ∧ t.hop r.target name = .ok b ∧ h.Mirrors b
  /-- A related name that is given by one of two declarations reads what the other one reads. -/
  alike : ∀ a ∈ t.associations, ∀ l ∈ a.links, ∀ l' ∈ a.links, l ≠ l' →
    ∀ e ∈ s.all, ∀ r ∈ e.relationships, l'.member = ⟨e.name, r.name⟩ →
      ∀ name ∈ r.relatedName, ∃ h b,
        t.hop l.source l.relationship = .ok h ∧ t.hop l.source name = .ok b ∧ h.ReadsAlike b

namespace Topology.Resolves

variable {t : Topology} {s : Schema} {ds : List Declaration} (ht : t.Resolves s ds)
include ht

/-! ## Hops of related names -/

/-- A related name is found as the hop against the declaration that gives it. -/
theorem hop_related (hs : s.WellFormed) (hds : s.declarations = .ok ds) {d : Declaration}
    (hd : d ∈ ds) {name : String} (hname : d.relationship.relatedName = some name) :
    ∃ p ∈ t.places, p.link = d.link ∧ t.hop d.target.name name = .ok ⟨p, .inbound⟩ := by
  obtain ⟨p, hp, hlink⟩ := ht.place_of_declaration hd
  have hplace : Dict.find? t.declared d.member = some p := by
    rw [ht.declared_iff, hlink]
    exact ⟨hp, rfl⟩
  have hrelated : Dict.find? t.related ⟨d.target.name, name⟩ = some p :=
    (ht.related_iff _ _).mpr ⟨d, hd, hname, rfl, hplace⟩
  -- no relationship is declared under the name, so the look-up goes on to the related ones
  have hmem : (⟨d.target.name, name⟩ : Member) ∈ Dict.keys t.related :=
    List.mem_map_of_mem (Dict.mem_of_find?_eq_some hrelated)
  have hdeclared : Dict.find? t.declared ⟨d.target.name, name⟩ = none := by
    rw [Dict.find?_eq_none_iff]
    intro hmem'
    exact (List.nodup_append.mp (ht.keys_nodup hs hds)).2.2 _ hmem' _ hmem rfl
  refine ⟨p, hp, hlink, ?_⟩
  rw [hop, hop?, hdeclared, hrelated]
  rfl

/-! ## What the ends see -/

/-- Of two links of an association the one is the partner of the other. -/
theorem partner_of_ne {a : Association} (ha : a ∈ t.associations) {l l' : Link} (hl : l ∈ a.links)
    (hl' : l' ∈ a.links) (hne : l ≠ l') (d : Direction) :
    Hop.partner ⟨⟨a, l⟩, d⟩ = some l' :=
  (ht.eq_link_or_partner (h := ⟨⟨a, l⟩, d⟩) (mem_places.mpr ⟨ha, hl⟩) hl').resolve_left
    (Ne.symm hne)

/-- Of two links of an association the one leads to where the other one starts. -/
theorem target_of_ne (hs : s.WellFormed) (hds : s.declarations = .ok ds) {a : Association}
    (ha : a ∈ t.associations) {l l' : Link} (hl : l ∈ a.links) (hl' : l' ∈ a.links) (hne : l ≠ l') :
    l'.target = l.source := by
  rw [Association.links, List.mem_cons, Option.mem_toList] at hl hl'
  rcases hl with rfl | hl <;> rcases hl' with rfl | hl'
  · exact absurd rfl hne
  · exact (ht.reverse_link hs hds ha hl').2.1
  · exact (ht.reverse_link hs hds ha hl).1.symm
  · exact absurd (Option.some.inj (hl.symm.trans hl')) hne

theorem mirrors_partner {a : Association} (ha : a ∈ t.associations) {l l' : Link}
    (hl : l ∈ a.links) (hl' : l' ∈ a.links) (hne : l ≠ l') :
    (Place.hop ⟨a, l⟩).Mirrors (Place.hop ⟨a, l'⟩) := by
  have hp : (⟨a, l⟩ : Place) ∈ t.places := mem_places.mpr ⟨ha, hl⟩
  have hback : (Place.hop ⟨a, l⟩).opposite = some (Place.hop ⟨a, l'⟩) := by
    have hpartner : (Place.hop ⟨a, l⟩).partner = some l' := ht.partner_of_ne ha hl hl' hne .outbound
    simp only [Hop.opposite, Place.hop] at hpartner ⊢
    rw [hpartner]
    rfl
  exact fun store x y => (Hop.reads_opposite ht hp hback).symm

theorem mirrors_related {p : Place} (hp : p ∈ t.places) : p.hop.Mirrors ⟨p, .inbound⟩ :=
  fun _ _ _ => Hop.reads_opposite ht (h := ⟨p, .inbound⟩) hp rfl

theorem readsAlike_related {a : Association} (ha : a ∈ t.associations) {l l' : Link}
    (hl : l ∈ a.links) (hl' : l' ∈ a.links) (hne : l ≠ l') :
    (Place.hop ⟨a, l⟩).ReadsAlike ⟨⟨a, l'⟩, .inbound⟩ := by
  intro store x y
  have hthere := ht.mirrors_partner ha hl hl' hne store x y
  have hback := ht.mirrors_related (mem_places.mpr ⟨ha, hl'⟩ : (⟨a, l'⟩ : Place) ∈ t.places) store y x
  exact hthere.trans hback

end Topology.Resolves

/-- In a resolved mapper both ends of every relationship see the same connections. -/
theorem Mapper.Resolved.mirrored {m : Mapper} (hm : m.Resolved) :
    m.topology.Mirrored m.schema := by
  obtain ⟨ds, hds, ht⟩ := hm.topology
  have hs := hm.wellFormed
  have hdeclared : ∀ a ∈ m.topology.associations, ∀ l ∈ a.links,
      m.topology.hop l.source l.relationship = .ok (Place.hop ⟨a, l⟩) :=
    fun a ha l hl => ht.hop_declared (p := ⟨a, l⟩) (Topology.mem_places.mpr ⟨ha, hl⟩)
  constructor
  case partner =>
    intro a ha l hl l' hl' hne
    exact ⟨_, _, hdeclared a ha l hl, hdeclared a ha l' hl', ht.mirrors_partner ha hl hl' hne⟩
  case related =>
    intro e he r hr name hname
    obtain ⟨d, hd, rfl, rfl⟩ := Schema.exists_declaration hds he hr
    obtain ⟨p, hp, hlink, hhop⟩ := ht.hop_related hs hds hd hname
    have htarget : d.target.name = d.relationship.target :=
      (hs.entity?_eq_some_iff.mp ((Schema.mem_declarations_iff hds).mp hd).2.2).2
    have hown := ht.hop_declared hp
    rw [hlink] at hown
    exact ⟨_, _, hown, htarget ▸ hhop, ht.mirrors_related hp⟩
  case alike =>
    intro a ha l hl l' hl' hne e he r hr hmember name hname
    obtain ⟨d, hd, rfl, rfl⟩ := Schema.exists_declaration hds he hr
    obtain ⟨p, hp, hlink, hhop⟩ := ht.hop_related hs hds hd hname
    -- the declaration that gives the name is that of the second link
    obtain rfl : (⟨a, l'⟩ : Place) = p := by
      have hfound := (ht.declared_iff _ _).mpr
        ⟨(Topology.mem_places.mpr ⟨ha, hl'⟩ : (⟨a, l'⟩ : Place) ∈ m.topology.places), hmember⟩
      have hfound' := (ht.declared_iff _ _).mpr ⟨hp, congrArg Link.member hlink⟩
      exact Option.some.inj (hfound.symm.trans hfound')
    have hstart : d.target.name = l.source :=
      (congrArg Link.target hlink).symm.trans (ht.target_of_ne hs hds ha hl hl' hne)
    exact ⟨_, _, hdeclared a ha l hl, hstart ▸ hhop, ht.readsAlike_related ha hl hl' hne⟩

/-! ## Members of a club -/

/-- The mapper of a club whose members teach each other: both declarations of the association lead from
members to members, and each gives a related name. -/
def Club.mapper : Mapper :=
  (Mapper.ofEntities [{
    name := "Fellow"
    relationships := [
      { name := "mentor", target := "Fellow", graph := some "teaching", relatedName := some "taught" },
      { name := "pupils", target := "Fellow", graph := some "teaching", relatedName := some "guides"
        cardinality := .many, edgeCollection := some "guided" }] }] {}).toOption.getD ⟨{}, {}, {}⟩

theorem Mapper.mirrored_club :
    Club.mapper.Resolved ∧ Club.mapper.topology.Mirrored Club.mapper.schema ∧
      ∃ a ∈ Club.mapper.topology.associations, a.isBidirectional = true := by
  have hresolved : Club.mapper.Resolved := resolved_of_isOk (by decide +kernel)
  exact ⟨hresolved, hresolved.mirrored, by decide +kernel⟩

end GraphMapper
