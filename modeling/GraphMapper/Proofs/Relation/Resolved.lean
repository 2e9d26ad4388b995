import GraphMapper.Mapper
import GraphMapper.Proofs.Relation.Pairing

/-!
# Resolved topologies

What resolution leaves behind, said without the run that makes it (`Topology.Resolves`): the
associations are those of the pairs (`Association.ofPair`), so the links are the links of the
declarations, each once; the index of declared names finds exactly the places of the
links; no two links share an edge collection, and none uses a document collection; the two links of
an association come from declarations that belong together; a related name leads to the place of the
declaration that gives it.

The run is followed in `Resolution.Adds`: every step appends associations and adds their places to
the index, whatever graph names it claims on the way.
-/

namespace GraphMapper

open Outcome

/-! ## Places -/

/-- The member of the source that a link stands for. -/
def Link.member (l : Link) : Member := ⟨l.source, l.relationship⟩

def Association.places (a : Association) : List Place := a.links.map (Place.mk a)

def Topology.places (t : Topology) : List Place := t.associations.flatMap Association.places

/-- Adds places to the index of declared names. -/
def indexPlaces (declared : Dict Member Place) (places : List Place) : Dict Member Place :=
  places.foldl (fun d p => Dict.insert d p.link.member p) declared

theorem Association.mem_places {a : Association} {p : Place} :
    p ∈ a.places ↔ p.association = a ∧ p.link ∈ a.links := by
  rw [places, List.mem_map]
  constructor
  · rintro ⟨l, hl, rfl⟩
    exact ⟨rfl, hl⟩
  · rintro ⟨rfl, hl⟩
    exact ⟨p.link, hl, rfl⟩

theorem Topology.mem_places {t : Topology} {p : Place} :
    p ∈ t.places ↔ p.association ∈ t.associations ∧ p.link ∈ p.association.links := by
  rw [places, List.mem_flatMap]
  constructor
  · rintro ⟨a, ha, hp⟩
    obtain ⟨rfl, hl⟩ := Association.mem_places.mp hp
    exact ⟨ha, hl⟩
  · rintro ⟨ha, hl⟩
    exact ⟨p.association, ha, Association.mem_places.mpr ⟨rfl, hl⟩⟩

theorem Topology.map_link_places (t : Topology) : t.places.map Place.link = t.links := by
  rw [places, links, List.map_flatMap]
  apply List.flatMap_congr
  intro a _
  rw [Association.places, List.map_map]
  exact List.map_id _

/-- With one place per member, the index finds exactly the places. -/
theorem find?_indexPlaces {places : List Place}
    (hnodup : (places.map fun p => p.link.member).Nodup) {member : Member} {place : Place} :
    Dict.find? (indexPlaces [] places) member = some place ↔
      place ∈ places ∧ place.link.member = member := by
  let entries : List (Member × Place) := places.map fun p => (p.link.member, p)
  have hkeys : (Dict.keys entries).Nodup := by
    rw [Dict.keys, List.map_map]
    exact hnodup
  have hindex : indexPlaces [] places = entries.foldl (fun d e => Dict.insert d e.1 e.2) [] := by
    rw [List.foldl_map]
    rfl
  rw [hindex, Dict.find?_foldl_insert hkeys, Dict.find?, Option.or_none,
    Dict.find?_eq_some_iff hkeys, List.mem_map]
  constructor
  · rintro ⟨p, hp, heq⟩
    obtain ⟨rfl, rfl⟩ := Prod.mk.inj heq
    exact ⟨hp, rfl⟩
  · rintro ⟨hp, rfl⟩
    exact ⟨place, hp, rfl⟩

theorem indexPlaces_sorted {declared : Dict Member Place} (h : declared.Sorted)
    (places : List Place) : (indexPlaces declared places).Sorted := by
  induction places generalizing declared with
  | nil => exact h
  | cons p rest ih => exact ih (h.insert p.link.member p)

/-! ## Adding associations -/

/-- The graph of a declaration: the one that it names, or else the derived one. -/
def Declaration.graph (d : Declaration) : String := d.relationship.graph.getD d.derivedGraph

def Declaration.origin (d : Declaration) : GraphOrigin :=
  if d.relationship.graph.isSome then .declared else .derived

/-- The association of a declaration and its partner. -/
def Association.ofPair (pair : Declaration × Option Declaration) : Association :=
  ⟨pair.1.graph, pair.1.origin, pair.1.link, pair.2.map Declaration.link⟩

namespace Resolution

/-- What the addition of associations changes. -/
structure Adds (s : Resolution) (as : List Association) (s' : Resolution) : Prop where
  associations : s'.topology.associations = s.topology.associations ++ as
  declared : s'.topology.declared =
    indexPlaces s.topology.declared (as.flatMap Association.places)
  related : s'.topology.related = s.topology.related
  collections : s'.collections =
    ((as.flatMap Association.links).map (·.collection)).reverse ++ s.collections
  nodup : s.collections.Nodup → s'.collections.Nodup

theorem Adds.refl (s : Resolution) : Adds s [] s := by
  constructor <;> simp [indexPlaces]

theorem Adds.trans {s s' s'' : Resolution} {as bs : List Association}
    (h : Adds s as s') (h' : Adds s' bs s'') : Adds s (as ++ bs) s'' := by
  constructor
  · rw [h'.associations, h.associations, List.append_assoc]
  · rw [h'.declared, h.declared]
    simp [indexPlaces, List.flatMap_append]
  · rw [h'.related, h.related]
  · rw [h'.collections, h.collections]
    simp [List.flatMap_append]
  · exact fun hs => h'.nodup (h.nodup hs)

theorem addLink_eq_ok {a : Association} {l : Link} {s s' : Resolution}
    (h : addLink a s l = .ok s') :
    l.collection ∉ s.collections ∧
      s' = { s with
        collections := l.collection :: s.collections
        topology := { s.topology with
          declared := Dict.insert s.topology.declared l.member ⟨a, l⟩ } } := by
  unfold addLink at h
  split at h
  · cases h
  · next hfree =>
    exact ⟨by simpa using hfree, (Except.ok.inj h).symm⟩

/-- The links of an association, recorded one after the other. -/
theorem addLinks_eq_ok {a : Association} {ls : List Link} {s s' : Resolution}
    (h : ls.foldlM (addLink a) s = .ok s') :
    s'.topology.associations = s.topology.associations ∧
      s'.topology.declared = indexPlaces s.topology.declared (ls.map (Place.mk a)) ∧
      s'.topology.related = s.topology.related ∧
      s'.collections = (ls.map (·.collection)).reverse ++ s.collections ∧
      (s.collections.Nodup → s'.collections.Nodup) := by
  induction ls generalizing s with
  | nil =>
    obtain rfl := pure_eq_ok.mp h
    simp [indexPlaces]
  | cons l rest ih =>
    rw [List.foldlM_cons] at h
    obtain ⟨t, ht, hrest⟩ := bind_eq_ok.mp h
    obtain ⟨hfree, rfl⟩ := addLink_eq_ok ht
    obtain ⟨hassoc, hdeclared, hrelated, hcollections, hnodup⟩ := ih hrest
    refine ⟨hassoc, hdeclared, hrelated, ?_, fun hs => hnodup ?_⟩
    · rw [hcollections]
      simp
    · exact List.nodup_cons.mpr ⟨hfree, hs⟩

/-- A claim gives the graph of the declaration and leaves associations and collections alone. -/
theorem claimGraph_eq_ok {ds : List Declaration} {d : Declaration} {s s' : Resolution}
    {graph : String} {origin : GraphOrigin} (h : s.claimGraph ds d = .ok (s', graph, origin)) :
    s'.topology = s.topology ∧ s'.collections = s.collections ∧
      graph = d.graph ∧ origin = d.origin := by
  unfold claimGraph at h
  unfold Declaration.graph Declaration.origin
  split at h
  · next hint =>
    obtain ⟨rfl, hclaimed⟩ := Prod.mk.inj (Except.ok.inj h)
    obtain ⟨rfl, rfl⟩ := Prod.mk.inj hclaimed
    simp [hint]
  · next hint =>
    rw [hint]
    dsimp only at h
    split at h
    · cases h
    · split at h
      · split at h
        · obtain ⟨rfl, hclaimed⟩ := Prod.mk.inj (Except.ok.inj h)
          obtain ⟨rfl, rfl⟩ := Prod.mk.inj hclaimed
          exact ⟨rfl, rfl, rfl, rfl⟩
        · cases h
      · obtain ⟨rfl, hclaimed⟩ := Prod.mk.inj (Except.ok.inj h)
        obtain ⟨rfl, rfl⟩ := Prod.mk.inj hclaimed
        exact ⟨rfl, rfl, rfl, rfl⟩

/-- One pair adds its association. -/
theorem addAssociation_adds {ds : List Declaration} {s s' : Resolution}
    {pair : Declaration × Option Declaration} (h : addAssociation ds s pair = .ok s') :
    Adds s [.ofPair pair] s' := by
  unfold addAssociation at h
  obtain ⟨⟨claimed, graph, origin⟩, hclaim, h⟩ := bind_eq_ok.mp h
  obtain ⟨linked, hlinks, h⟩ := bind_eq_ok.mp h
  obtain rfl := pure_eq_ok.mp h
  obtain ⟨htopology, hclaimed, rfl, rfl⟩ := claimGraph_eq_ok hclaim
  obtain ⟨hassoc, hdeclared, hrelated, hcollections, hnodup⟩ := addLinks_eq_ok hlinks
  rw [htopology] at hassoc hdeclared hrelated
  rw [hclaimed] at hcollections hnodup
  constructor
  · exact congrArg (· ++ _) hassoc
  · simpa [Association.places, Association.ofPair] using hdeclared
  · exact hrelated
  · simpa [Association.ofPair] using hcollections
  · exact hnodup

/-- A run adds the associations of the pairs, in order. -/
theorem run_adds {ds : List Declaration} {pairs : List (Declaration × Option Declaration)}
    {s s' : Resolution} (h : pairs.foldlM (addAssociation ds) s = .ok s') :
    Adds s (pairs.map .ofPair) s' := by
  induction pairs generalizing s with
  | nil =>
    obtain rfl := pure_eq_ok.mp h
    exact .refl s
  | cons pair rest ih =>
    rw [List.foldlM_cons] at h
    obtain ⟨t, ht, hrest⟩ := bind_eq_ok.mp h
    exact (addAssociation_adds ht).trans (ih hrest)

theorem links_ofPairs (pairs : List (Declaration × Option Declaration)) :
    (pairs.map Association.ofPair).flatMap Association.links =
      (pairs.flatMap pairMembers).map Declaration.link := by
  induction pairs with
  | nil => rfl
  | cons pair rest ih =>
    obtain ⟨d, partner⟩ := pair
    rw [List.map_cons, List.flatMap_cons, List.flatMap_cons, List.map_append, ih]
    cases partner <;> rfl

end Resolution

/-! ## Related names -/

/-- What a related name adds to the index of its target. -/
theorem Topology.addRelatedName_eq_ok {t t' : Topology} {d : Declaration}
    (h : t.addRelatedName d = .ok t') :
    t'.associations = t.associations ∧ t'.declared = t.declared ∧
      (t.related.Sorted → t'.related.Sorted) ∧
      (∀ related ∈ d.relationship.relatedName, d.target.hasMember related = false) ∧
      ∀ member place, Dict.find? t'.related member = some place ↔
        Dict.find? t.related member = some place ∨
          (d.relationship.relatedName = some member.name ∧ d.target.name = member.entity ∧
            Dict.find? t.declared d.member = some place) := by
  unfold addRelatedName at h
  split at h
  · next hname =>
    obtain rfl := Except.ok.inj h
    simp [hname]
  · next related hname =>
    split at h
    · cases h
    · next hmember =>
      have hfree : ∀ other ∈ d.relationship.relatedName, d.target.hasMember other = false := by
        intro other hother
        obtain rfl := Option.some.inj (hname.symm.trans hother)
        simpa using hmember
      split at h
      · next hplace =>
        obtain rfl := Except.ok.inj h
        refine ⟨rfl, rfl, id, hfree, ?_⟩
        simp [hplace]
      · next place hplace =>
        split at h
        · cases h
        · next hnew =>
          obtain rfl := Except.ok.inj h
          refine ⟨rfl, rfl, fun hsorted => hsorted.insert _ _, hfree, ?_⟩
          rintro ⟨entity, name⟩ p
          have hnone : Dict.find? t.related ⟨d.target.name, related⟩ = none := by
            simpa [Dict.contains] using hnew
          rw [Dict.find?_insert]
          by_cases hmember : (⟨d.target.name, related⟩ : Member) = ⟨entity, name⟩
          · obtain ⟨rfl, rfl⟩ := Member.mk.inj hmember
            simp [hnone, hname, hplace]
          · have hother : ¬ (related = name ∧ d.target.name = entity) := by
              rintro ⟨rfl, rfl⟩
              exact hmember rfl
            rw [if_neg hmember, hname, Option.some.injEq]
            constructor
            · exact Or.inl
            · rintro (hfound | ⟨h1, h2, -⟩)
              · exact hfound
              · exact absurd ⟨h1, h2⟩ hother

theorem Topology.addRelatedNames_eq_ok {ds : List Declaration} {t t' : Topology}
    (h : ds.foldlM addRelatedName t = .ok t') :
    t'.associations = t.associations ∧ t'.declared = t.declared ∧
      (t.related.Sorted → t'.related.Sorted) ∧
      (∀ d ∈ ds, ∀ related ∈ d.relationship.relatedName, d.target.hasMember related = false) ∧
      ∀ member place, Dict.find? t'.related member = some place ↔
        Dict.find? t.related member = some place ∨
          ∃ d ∈ ds, d.relationship.relatedName = some member.name ∧
            d.target.name = member.entity ∧ Dict.find? t.declared d.member = some place := by
  induction ds generalizing t with
  | nil =>
    obtain rfl := pure_eq_ok.mp h
    simp
  | cons d rest ih =>
    rw [List.foldlM_cons] at h
    obtain ⟨u, hu, hrest⟩ := bind_eq_ok.mp h
    obtain ⟨hassoc, hdeclared, hsorted, hfree, hrelated⟩ := addRelatedName_eq_ok hu
    obtain ⟨hassoc', hdeclared', hsorted', hfree', hrelated'⟩ := ih hrest
    refine ⟨hassoc'.trans hassoc, hdeclared'.trans hdeclared, fun h => hsorted' (hsorted h),
      List.forall_mem_cons.mpr ⟨hfree, hfree'⟩, ?_⟩
    intro member place
    rw [hrelated', hrelated, hdeclared, or_assoc]
    simp

/-! ## The result -/

/-- The topology that the declarations of a schema resolve to. -/
structure Topology.Resolves (t : Topology) (s : Schema) (ds : List Declaration) : Prop where
  associations_eq : t.associations = (pairUp ds).map .ofPair
  links_perm : t.links.Perm (ds.map Declaration.link)
  declared_sorted : t.declared.Sorted
  declared_iff : ∀ member place, Dict.find? t.declared member = some place ↔
    place ∈ t.places ∧ place.link.member = member
  related_sorted : t.related.Sorted
  related_iff : ∀ member place, Dict.find? t.related member = some place ↔
    ∃ d ∈ ds, d.relationship.relatedName = some member.name ∧ d.target.name = member.entity ∧
      Dict.find? t.declared d.member = some place
  related_free : ∀ d ∈ ds, ∀ related ∈ d.relationship.relatedName,
    d.target.hasMember related = false
  collections_nodup : (t.links.map (·.collection) ++ s.collections).Nodup
  reverse_pairs : ∀ a ∈ t.associations, ∀ l ∈ a.reverse, ∃ d ∈ ds, ∃ d' ∈ ds,
    d.pairsWith d' = true ∧ a.forward = d.link ∧ l = d'.link

/-- When the links are those of the declarations, no member has two places. -/
theorem Topology.members_nodup {t : Topology} {s : Schema} (hs : s.WellFormed)
    {ds : List Declaration} (hds : s.declarations = .ok ds)
    (hperm : t.links.Perm (ds.map Declaration.link)) :
    (t.places.map fun p => p.link.member).Nodup := by
  have hmap : (t.places.map fun p => p.link.member) = t.links.map Link.member := by
    rw [← t.map_link_places, List.map_map]
    rfl
  rw [hmap, (hperm.map _).nodup_iff, List.map_map]
  exact s.members_nodup hs hds

/-- Resolving a registered schema gives a topology of its declarations. -/
theorem Topology.ofSchema_resolves {s : Schema} (hs : s.WellFormed) {t : Topology}
    (h : Topology.ofSchema s = .ok t) : ∃ ds, s.declarations = .ok ds ∧ t.Resolves s ds := by
  unfold ofSchema at h
  obtain ⟨ds, hds, h⟩ := bind_eq_ok.mp h
  obtain ⟨resolution, hrun, h⟩ := bind_eq_ok.mp h
  have hadds := Resolution.run_adds hrun
  obtain ⟨hassoc, hdeclared, hsorted, hfree, hrelated⟩ := addRelatedNames_eq_ok h
  have hassociations : t.associations = (pairUp ds).map .ofPair := by
    rw [hassoc, hadds.associations]
    rfl
  have hlinks : t.links = (pairUp ds |>.flatMap pairMembers).map Declaration.link := by
    rw [links, hassociations, Resolution.links_ofPairs]
  have hperm : t.links.Perm (ds.map Declaration.link) := hlinks ▸ (pairUp_perm ds).map _
  have hindex : t.declared = indexPlaces [] t.places := by
    rw [hdeclared, hadds.declared, places, hassociations]
  have hmembers := members_nodup hs hds hperm
  refine ⟨ds, hds, hassociations, hperm, ?_, ?_, ?_, ?_, hfree, ?_, ?_⟩
  · rw [hindex]
    exact indexPlaces_sorted .nil _
  · intro member place
    rw [hindex]
    exact find?_indexPlaces hmembers
  · apply hsorted
    rw [hadds.related]
    exact .nil
  · intro member place
    rw [hrelated, hadds.related, hdeclared]
    simp [Dict.find?]
  · have hcollections := hadds.nodup hs.owners_nodup
    rw [hadds.collections] at hcollections
    have hsame : ((pairUp ds).map Association.ofPair).flatMap Association.links = t.links := by
      rw [links, hassociations]
    rw [hsame] at hcollections
    exact ((List.reverse_perm _).append_right _).nodup_iff.mp hcollections
  · intro a ha l hl
    rw [hassociations] at ha
    obtain ⟨⟨d, partner⟩, hpair, rfl⟩ := List.mem_map.mp ha
    obtain ⟨d', rfl, rfl⟩ := Option.map_eq_some_iff.mp hl
    have hmem := fun e he => (pairUp_perm ds).mem_iff.mp
      (List.mem_flatMap.mpr ⟨(d, some d'), hpair, he⟩ : e ∈ (pairUp ds).flatMap pairMembers)
    refine ⟨d, hmem d (by simp [pairMembers]), d', hmem d' (by simp [pairMembers]), ?_, rfl, rfl⟩
    exact pairsWith_of_mem_pairUp hpair

end GraphMapper
