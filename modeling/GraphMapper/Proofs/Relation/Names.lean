import GraphMapper.Proofs.Relation.Hops
import GraphMapper.Proofs.Text.Identifier

/-!
# Names of a resolved mapper

Every name that a resolved mapper puts into a statement is an identifier: the collections of its
entities and links, the attributes, and the names under which hops are found. A name that was given
has been checked when its entity was registered, and an edge collection without one is made of two
names that were.

The names of relations are told apart from each other (`Mapper.Resolved.relationNames_nodup`), from the
attributes and from the names that the database keeps (`Mapper.Resolved.relation_free`).
-/

namespace GraphMapper

theorem isIdentifier_of_isMemberName {name : String} (h : isMemberName name = true) :
    Text.isIdentifier name = true := by
  rw [isMemberName, Bool.and_eq_true] at h
  exact h.1

/-! ## Registered entities -/

namespace Schema.WellFormed

variable {s : Schema} (hs : s.WellFormed) {e : Entity} (he : e ∈ s.all)
include hs he

theorem valid_entity : e.Valid := Entity.validate_eq_ok_iff.mp (hs.valid e he)

theorem isIdentifier_collectionName : Text.isIdentifier e.collectionName = true :=
  Text.isIdentifier_of_isCollectionName (hs.valid_entity he).collection

theorem isIdentifier_attribute {a : Attribute} (ha : a ∈ e.attributes) :
    Text.isIdentifier a.name = true :=
  isIdentifier_of_isMemberName ((hs.valid_entity he).attributes a ha).name

theorem isIdentifier_relationship {r : Relationship} (hr : r ∈ e.relationships) :
    Text.isIdentifier r.name = true :=
  isIdentifier_of_isMemberName ((hs.valid_entity he).relationships r hr).name

end Schema.WellFormed

/-- The edge collection of a declaration is an identifier, given or made. -/
theorem Declaration.isIdentifier_collection {s : Schema} (hs : s.WellFormed) {d : Declaration}
    (he : d.source ∈ s.all) (hr : d.relationship ∈ d.source.relationships) :
    Text.isIdentifier d.link.collection = true := by
  have hvalid := ((hs.valid_entity he).relationships _ hr).edgeCollection
  unfold link
  dsimp only
  cases hcollection : d.relationship.edgeCollection with
  | some collection =>
    rw [hcollection] at hvalid
    exact Text.isIdentifier_of_isCollectionName hvalid
  | none =>
    have hbar : ∀ c ∈ "_".toList, Text.isNameChar c = true := List.all_eq_true.mp (by decide)
    have hname := Text.isNameChar_of_isIdentifier (hs.isIdentifier_relationship he hr)
    have hcollection := hs.isIdentifier_collectionName he
    exact Text.isIdentifier_append (Text.isIdentifier_append hcollection hbar) hname

/-! ## Names of relations -/

/-- A name of a relation is not taken by an attribute, nor kept by the database. -/
theorem Mapper.Resolved.relation_free {m : Mapper} (hm : m.Resolved) {e : Entity}
    (he : e ∈ m.schema.all) {name : String} (hname : name ∈ m.topology.relationNames e.name) :
    name ∉ e.attributes.map (·.name) ∧ isMemberName name = true := by
  obtain ⟨ds, hds, ht⟩ := hm.topology
  have hs := hm.wellFormed
  have hunique : ∀ e' ∈ m.schema.all, e'.name = e.name → e' = e := fun e' he' heq =>
    List.inj_on_of_nodup_map hs.names_nodup he' he heq
  obtain ⟨member, hmember, rfl⟩ := List.mem_map.mp hname
  obtain ⟨hmember, hentity⟩ := List.mem_filter.mp hmember
  have hentity : member.entity = e.name := by simpa using hentity
  rcases List.mem_append.mp hmember with hdeclared | hrelated
  · obtain ⟨entry, hentry, rfl⟩ := List.mem_map.mp hdeclared
    have hfound := (Dict.find?_eq_some_iff ht.declared_sorted.keys_nodup).mpr hentry
    obtain ⟨hp, hlink⟩ := (ht.declared_iff _ _).mp hfound
    obtain ⟨d, hd, heq⟩ := ht.declaration_of_place hp
    obtain ⟨hsource, hrelationship, -⟩ := (Schema.mem_declarations_iff hds).mp hd
    have hmember : d.member = entry.1 := (congrArg Link.member heq).symm.trans hlink
    have hsame : d.source = e :=
      hunique _ hsource ((congrArg Member.entity hmember).trans hentity)
    rw [hsame] at hrelationship
    obtain ⟨-, hchecked, -⟩ := Entity.checked_of_validate (hs.valid e he)
    have hown : entry.1.name = d.relationship.name := (congrArg Member.name hmember).symm
    rw [hown]
    refine ⟨?_, hchecked.isMemberName _ hrelationship⟩
    simpa using hchecked.new _ hrelationship
  · obtain ⟨entry, hentry, rfl⟩ := List.mem_map.mp hrelated
    have hfound := (Dict.find?_eq_some_iff ht.related_sorted.keys_nodup).mpr hentry
    obtain ⟨d, hd, hgiven, htarget, -⟩ := (ht.related_iff _ _).mp hfound
    obtain ⟨hsource, hrelationship, hlookup⟩ := (Schema.mem_declarations_iff hds).mp hd
    have hsame : d.target = e :=
      hunique _ (hs.entity?_eq_some_iff.mp hlookup).1 (htarget.trans hentity)
    have hfree := ht.related_free d hd _ hgiven
    obtain ⟨-, -, hchecked⟩ := Entity.checked_of_validate (hs.valid _ hsource)
    rw [hsame, Entity.hasMember_eq_false_iff] at hfree
    exact ⟨fun hmem => hfree (List.mem_append_left _ hmem), hchecked _ hrelationship _ hgiven⟩

/-- The names of the relations of an entity are those that are found as hops. -/
theorem Topology.mem_relationNames {t : Topology} {entity name : String} {hop : Hop}
    (h : t.hop entity name = .ok hop) : name ∈ t.relationNames entity := by
  have hmember : (⟨entity, name⟩ : Member) ∈ Dict.keys t.declared ++ Dict.keys t.related := by
    unfold Topology.hop hop? at h
    by_contra hnot
    rw [List.mem_append, not_or] at hnot
    rw [Dict.find?_eq_none_iff.mpr hnot.1, Dict.find?_eq_none_iff.mpr hnot.2] at h
    cases h
  exact List.mem_map.mpr ⟨_, List.mem_filter.mpr ⟨hmember, beq_self_eq_true entity⟩, rfl⟩

theorem Topology.exists_hop {t : Topology} {entity name : String}
    (h : name ∈ t.relationNames entity) : ∃ hop, t.hop entity name = .ok hop := by
  obtain ⟨member, hmember, rfl⟩ := List.mem_map.mp h
  obtain rfl : member.entity = entity := by simpa using (List.mem_filter.mp hmember).2
  unfold hop hop?
  cases hdeclared : Dict.find? t.declared ⟨member.entity, member.name⟩ with
  | some p => exact ⟨_, rfl⟩
  | none =>
    cases hrelated : Dict.find? t.related ⟨member.entity, member.name⟩ with
    | some p => exact ⟨_, rfl⟩
    | none =>
      rw [Dict.find?_eq_none_iff] at hdeclared hrelated
      exact absurd (List.mem_filter.mp hmember).1 (List.not_mem_append hdeclared hrelated)

/-- No name is both declared and related. -/
theorem Topology.Resolves.keys_nodup {t : Topology} {s : Schema} {ds : List Declaration}
    (ht : t.Resolves s ds) (hs : s.WellFormed) (hds : s.declarations = .ok ds) :
    (Dict.keys t.declared ++ Dict.keys t.related).Nodup := by
  refine List.nodup_append.mpr ⟨ht.declared_sorted.keys_nodup, ht.related_sorted.keys_nodup, ?_⟩
  rintro member hdeclared _ hrelated rfl
  obtain ⟨entry, hentry, rfl⟩ := List.mem_map.mp hdeclared
  obtain ⟨entry', hentry', hsame⟩ := List.mem_map.mp hrelated
  have hfound := (Dict.find?_eq_some_iff ht.declared_sorted.keys_nodup).mpr hentry
  have hfound' := (Dict.find?_eq_some_iff ht.related_sorted.keys_nodup).mpr hentry'
  obtain ⟨hp, hmember⟩ := (ht.declared_iff _ _).mp hfound
  obtain ⟨d, hd, hlink⟩ := ht.declaration_of_place hp
  obtain ⟨d', hd', hgiven, htarget, -⟩ := (ht.related_iff _ _).mp hfound'
  obtain ⟨hsource, hrelationship, -⟩ := (Schema.mem_declarations_iff hds).mp hd
  obtain ⟨-, -, hlookup⟩ := (Schema.mem_declarations_iff hds).mp hd'
  -- the entity that declares the name is the one that is given it by the other declaration
  rw [hlink] at hmember
  rw [hsame] at hgiven htarget
  have hname : d.relationship.name = entry.1.name := congrArg Member.name hmember
  have hentity : d.source.name = entry.1.entity := congrArg Member.entity hmember
  obtain ⟨htargetMem, -⟩ := hs.entity?_eq_some_iff.mp hlookup
  have hentities : d.source = d'.target :=
    List.inj_on_of_nodup_map hs.names_nodup hsource htargetMem (hentity.trans htarget.symm)
  have hfree := ht.related_free d' hd' _ hgiven
  rw [← hentities, Entity.hasMember_eq_false_iff, ← hname] at hfree
  exact hfree (List.mem_append_right _ (List.mem_map_of_mem hrelationship))

/-- The relations of an entity have names of their own. -/
theorem Mapper.Resolved.relationNames_nodup {m : Mapper} (hm : m.Resolved) (entity : String) :
    (m.topology.relationNames entity).Nodup := by
  obtain ⟨ds, hds, ht⟩ := hm.topology
  refine List.Nodup.map_on ?_ ((ht.keys_nodup hm.wellFormed hds).filter _)
  rintro ⟨entity', name⟩ hx ⟨entity'', name'⟩ hy rfl
  have hx : entity' = entity := by simpa using (List.mem_filter.mp hx).2
  have hy : entity'' = entity := by simpa using (List.mem_filter.mp hy).2
  rw [hx, hy]

/-! ## Hops -/

namespace Mapper.Resolved

variable {m : Mapper} (hm : m.Resolved)
include hm

theorem isIdentifier_lookup {entity : String} {e : Entity} (h : m.schema.lookup entity = .ok e) :
    Text.isIdentifier e.collectionName = true :=
  hm.wellFormed.isIdentifier_collectionName (hm.wellFormed.lookup_eq_ok h).1

theorem isIdentifier_link {l : Link} (hl : l ∈ m.topology.links) :
    Text.isIdentifier l.collection = true := by
  obtain ⟨ds, hds, ht⟩ := hm.topology
  obtain ⟨d, hd, rfl⟩ := List.mem_map.mp (ht.links_perm.mem_iff.mp hl)
  obtain ⟨he, hr, -⟩ := (Schema.mem_declarations_iff hds).mp hd
  exact d.isIdentifier_collection hm.wellFormed he hr

variable {entity name : String} {hop : Hop} (h : m.topology.hop entity name = .ok hop)
include h

/-- A hop is found under a declared name or a related name, and both have been checked. -/
theorem isIdentifier_hop : Text.isIdentifier name = true := by
  obtain ⟨ds, hds, ht⟩ := hm.topology
  have hvalid : ∀ d ∈ ds, d.relationship.Valid := by
    intro d hd
    obtain ⟨he, hr, -⟩ := (Schema.mem_declarations_iff hds).mp hd
    exact (hm.wellFormed.valid_entity he).relationships _ hr
  unfold Topology.hop Topology.hop? at h
  cases hdeclared : Dict.find? m.topology.declared ⟨entity, name⟩ with
  | some p =>
    obtain ⟨hp, hmember⟩ := (ht.declared_iff _ _).mp hdeclared
    obtain ⟨d, hd, hlink⟩ := ht.declaration_of_place hp
    rw [hlink] at hmember
    have hname : d.relationship.name = name := congrArg Member.name hmember
    exact hname ▸ isIdentifier_of_isMemberName (hvalid d hd).name
  | none =>
    rw [hdeclared] at h
    cases hrelated : Dict.find? m.topology.related ⟨entity, name⟩ with
    | none =>
      rw [hrelated] at h
      cases h
    | some p =>
      obtain ⟨d, hd, hname, -⟩ := (ht.related_iff _ _).mp hrelated
      have hchecked := (hvalid d hd).relatedName
      rw [hname] at hchecked
      exact isIdentifier_of_isMemberName hchecked

/-- A hop is found under a name that is neither that of the key nor an attribute's. -/
theorem hop_free {e : Entity} (he : m.schema.lookup entity = .ok e) :
    name ≠ keyField ∧ e.attribute? name = none := by
  obtain ⟨hmem, rfl⟩ := hm.wellFormed.lookup_eq_ok he
  obtain ⟨hattributes, hname⟩ := hm.relation_free hmem (Topology.mem_relationNames h)
  constructor
  · rintro rfl
    exact Entity.not_mem_reservedNames hname List.mem_cons_self
  · apply List.find?_eq_none.mpr
    intro a ha heq
    exact hattributes (List.mem_map.mpr ⟨a, ha, beq_iff_eq.mp heq⟩)

/-- A hop leads to a registered entity. -/
theorem exists_lookup_target : ∃ e, m.schema.lookup hop.target = .ok e := by
  obtain ⟨ds, hds, ht⟩ := hm.topology
  obtain ⟨hp, -⟩ := ht.place_of_hop h
  have hl := Topology.Resolves.link_mem hp
  obtain ⟨e, he, hname, -⟩ := ht.exists_entityAt hm.wellFormed hds hl hop.direction.otherEnd
  have htarget : hop.target = e.name := Hop.target_eq.trans hname.symm
  exact ⟨e, htarget ▸ hm.wellFormed.lookup_of_mem he⟩

/-- The edge collections that a hop follows are those of links. -/
theorem link_of_edgeCollections {entry : Direction × String} (hentry : entry ∈ hop.edgeCollections) :
    ∃ l ∈ m.topology.links, l.collection = entry.2 := by
  obtain ⟨ds, hds, ht⟩ := hm.topology
  obtain ⟨hp, -⟩ := ht.place_of_hop h
  obtain ⟨l, hl, hname, -⟩ := ht.link_of_edgeCollections hm.wellFormed hds hp hentry
  exact ⟨l, hl, hname⟩

end Mapper.Resolved

end GraphMapper
