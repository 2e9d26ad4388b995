import GraphMapper.Proofs.Relation.Resolved

/-!
# Accounts of names

Resolving keeps three accounts of names: the derived graph names with the entities that they were
derived for (`Resolution.claimed`), the collections in use, and the index of related names. Each
step is checked against what the steps before it have left there.

`Resolution.Free` says of pairs that are still to come that the accounts leave room for them. A step
ends well when its pair is free, and what is free before the step is free after it (`free_cons`), so
that a run ends well exactly when all its pairs are free at its beginning (`exists_run_iff`). The
related names are followed in the same way (`Topology.exists_addRelatedNames_iff`).
-/

namespace GraphMapper

open Outcome

/-! ## Claims of derived names -/

/-- A derived graph name and the entities at the ends of the relationship that it is derived for. -/
abbrev Claim := String × String × String

namespace Declaration

/-- What a declaration claims: its derived graph name, if it gives none. -/
def claims (d : Declaration) : List Claim :=
  if d.relationship.graph = none then
    [(d.derivedGraph, d.source.name, d.relationship.target)]
  else []

theorem mem_claims {d : Declaration} {c : Claim} :
    c ∈ d.claims ↔ d.relationship.graph = none ∧
      c = (d.derivedGraph, d.source.name, d.relationship.target) := by
  unfold claims
  split <;> simp_all

/-- A declaration that belongs to another one gives its graph. -/
theorem claims_of_pairsWith {d d' : Declaration} (h : d.pairsWith d' = true) : d'.claims = [] := by
  obtain ⟨hgraph, hback⟩ := pairsWith_iff.mp h
  have hsame : d'.relationship.graph = d.relationship.graph := congrArg Course.graph hback
  have hsome : d.relationship.graph.isSome = true := hgraph
  rw [claims, if_neg]
  rw [hsame]
  exact Option.isSome_iff_ne_none.mp hsome

end Declaration

/-- Each name is claimed for one pair of entities. -/
def Consistent (claims : List Claim) : Prop :=
  ∀ c ∈ claims, ∀ c' ∈ claims, c.1 = c'.1 → c.2 = c'.2

theorem Consistent.mono {cs cs' : List Claim} (h : Consistent cs') (hsub : ∀ c ∈ cs, c ∈ cs') :
    Consistent cs :=
  fun c hc c' hc' => h c (hsub c hc) c' (hsub c' hc')

/-- A claim is consistent with others when it is for the same entities as those of its name. -/
theorem consistent_cons {c : Claim} {cs : List Claim} :
    Consistent (c :: cs) ↔ Consistent cs ∧ ∀ c' ∈ cs, c'.1 = c.1 → c'.2 = c.2 := by
  constructor
  · intro h
    refine ⟨h.mono fun _ hmem => List.mem_cons_of_mem c hmem, fun c' hc' heq => ?_⟩
    exact h c' (List.mem_cons_of_mem c hc') c List.mem_cons_self heq
  · rintro ⟨hcs, hnew⟩ a ha b hb heq
    rcases List.mem_cons.mp ha with hfirst | ha <;> rcases List.mem_cons.mp hb with hfirst' | hb
    · rw [hfirst, hfirst']
    · rw [hfirst] at heq ⊢
      exact (hnew b hb heq.symm).symm
    · rw [hfirst'] at heq ⊢
      exact hnew a ha heq
    · exact hcs a ha b hb heq

/-- The pairs claim what the declarations claim, because who has a partner claims nothing. -/
theorem mem_claims_pairUp {ds : List Declaration} {c : Claim} :
    c ∈ (pairUp ds).flatMap (fun pair => pair.1.claims) ↔ c ∈ ds.flatMap Declaration.claims := by
  simp only [List.mem_flatMap]
  constructor
  · rintro ⟨pair, hpair, hc⟩
    refine ⟨pair.1, ?_, hc⟩
    apply (pairUp_perm ds).mem_iff.mp
    exact List.mem_flatMap.mpr ⟨pair, hpair, List.mem_cons_self⟩
  · rintro ⟨d, hd, hc⟩
    obtain ⟨⟨first, partner⟩, hpair, hmem⟩ :=
      List.mem_flatMap.mp ((pairUp_perm ds).mem_iff.mpr hd)
    rcases List.mem_cons.mp hmem with rfl | hpartner
    · exact ⟨_, hpair, hc⟩
    · obtain rfl := Option.mem_toList.mp hpartner
      rw [Declaration.claims_of_pairsWith (pairsWith_of_mem_pairUp hpair)] at hc
      cases hc

namespace Resolution

variable {ds : List Declaration} {s t : Resolution} {d : Declaration}

/-- The claims that have been recorded. -/
def claimed (s : Resolution) : List Claim :=
  s.derived.map fun entry => (entry.1, entry.2.source.name, entry.2.relationship.target)

theorem hintOwner?_eq_none_iff {graph : String} :
    hintOwner? ds graph = none ↔ ∀ d ∈ ds, d.relationship.graph ≠ some graph := by
  simp [hintOwner?]

/-- The declaration that is recorded under a name has claimed it. -/
theorem mem_claimed_of_find? {graph : String} {first : Declaration}
    (h : Dict.find? s.derived graph = some first) :
    (graph, first.source.name, first.relationship.target) ∈ s.claimed :=
  List.mem_map_of_mem (Dict.mem_of_find?_eq_some h)

/-- A claim is granted when the name is not given anywhere and agrees with what has been recorded. -/
theorem exists_claimGraph_iff (hs : Consistent s.claimed) :
    (∃ granted, s.claimGraph ds d = .ok granted) ↔
      (∀ c ∈ d.claims, hintOwner? ds c.1 = none) ∧ Consistent (d.claims ++ s.claimed) := by
  unfold claimGraph Declaration.claims
  cases hgraph : d.relationship.graph with
  | some graph => simpa using hs
  | none =>
    simp only [if_true, List.forall_mem_singleton, List.cons_append, List.nil_append]
    cases howner : hintOwner? ds d.derivedGraph with
    | some owner => simp
    | none =>
      cases hfirst : Dict.find? s.derived d.derivedGraph with
      | none =>
        have hnew : ∀ c ∈ s.claimed, c.1 ≠ d.derivedGraph := by
          intro c hc heq
          obtain ⟨entry, hentry, rfl⟩ := List.mem_map.mp hc
          exact Dict.find?_eq_none_iff.mp hfirst (heq ▸ List.mem_map_of_mem hentry)
        simp only [Except.ok.injEq, exists_eq', true_iff, true_and, consistent_cons]
        exact ⟨hs, fun c hc heq => absurd heq (hnew c hc)⟩
      | some first =>
        have hrecorded := mem_claimed_of_find? hfirst
        simp only [true_and, consistent_cons]
        split
        · next hsame =>
          simp only [Bool.and_eq_true, beq_iff_eq] at hsame
          rw [hsame.1, hsame.2] at hrecorded
          simp only [Except.ok.injEq, exists_eq', true_iff]
          exact ⟨hs, fun c hc heq => hs c hc _ hrecorded heq⟩
        · next hother =>
          simp only [reduceCtorEq, exists_false, false_iff]
          rintro ⟨-, hagree⟩
          have hsource : first.source.name = d.source.name :=
            congrArg Prod.fst (hagree _ hrecorded rfl)
          have htarget : first.relationship.target = d.relationship.target :=
            congrArg Prod.snd (hagree _ hrecorded rfl)
          exact hother (by simp [hsource, htarget])

/-- What is granted has been recorded. -/
theorem mem_claimed_of_claimGraph {graph : String} {origin : GraphOrigin}
    (h : s.claimGraph ds d = .ok (t, graph, origin)) (c : Claim) :
    c ∈ t.claimed ↔ c ∈ d.claims ++ s.claimed := by
  unfold claimGraph at h
  unfold Declaration.claims
  split at h
  · next hgraph =>
    obtain ⟨rfl, -⟩ := Prod.mk.inj (Except.ok.inj h)
    simp [hgraph]
  · next hgraph =>
    rw [if_pos hgraph, List.singleton_append]
    dsimp only at h
    split at h
    · cases h
    · split at h
      · next first hfirst =>
        split at h
        · next hsame =>
          obtain ⟨rfl, -⟩ := Prod.mk.inj (Except.ok.inj h)
          have hrecorded := mem_claimed_of_find? hfirst
          simp only [Bool.and_eq_true, beq_iff_eq] at hsame
          rw [hsame.1, hsame.2] at hrecorded
          rw [List.mem_cons, or_iff_right_of_imp]
          rintro rfl
          exact hrecorded
        · cases h
      · next hnone =>
        obtain ⟨rfl, -⟩ := Prod.mk.inj (Except.ok.inj h)
        have hperm := Dict.insert_perm (Dict.find?_eq_none_iff.mp hnone) d
        exact (hperm.map _).mem_iff

/-! ## Links -/

theorem exists_addLink_iff {a : Association} {l : Link} :
    (∃ t, addLink a s l = .ok t) ↔ l.collection ∉ s.collections := by
  unfold addLink
  by_cases h : l.collection ∈ s.collections <;> simp [h]

/-- Links can be recorded when their collections are new, and apart from each other. -/
theorem exists_addLinks_iff {a : Association} {ls : List Link} (hs : s.collections.Nodup) :
    (∃ t, ls.foldlM (addLink a) s = .ok t) ↔
      (ls.map (·.collection) ++ s.collections).Nodup := by
  induction ls generalizing s with
  | nil => simpa using hs
  | cons l rest ih =>
    rw [List.foldlM_cons, exists_bind_iff, List.map_cons, List.cons_append,
      ← List.perm_middle.nodup_iff]
    constructor
    · rintro ⟨t, ht, hrest⟩
      obtain ⟨hnew, rfl⟩ := addLink_eq_ok ht
      exact (ih (List.nodup_cons.mpr ⟨hnew, hs⟩)).mp hrest
    · intro hnodup
      have hcons := (List.nodup_append.mp hnodup).2.1
      obtain ⟨t, ht⟩ := exists_addLink_iff.mpr (List.nodup_cons.mp hcons).1
      refine ⟨t, ht, ?_⟩
      obtain ⟨-, rfl⟩ := addLink_eq_ok ht
      exact (ih hcons).mpr hnodup

theorem addLinks_derived {a : Association} {ls : List Link}
    (h : ls.foldlM (addLink a) s = .ok t) : t.derived = s.derived := by
  refine foldlM_preserves (P := fun u => u.derived = s.derived) ?_ rfl h
  intro u l u' _ hu hstep
  obtain ⟨-, rfl⟩ := addLink_eq_ok hstep
  exact hu

/-! ## Pairs -/

/-- What the accounts leave to the pairs to come. -/
structure Free (ds : List Declaration) (s : Resolution)
    (pairs : List (Declaration × Option Declaration)) : Prop where
  hints : ∀ c ∈ pairs.flatMap (fun pair => pair.1.claims), hintOwner? ds c.1 = none
  derived : Consistent (pairs.flatMap (fun pair => pair.1.claims) ++ s.claimed)
  collections : ((pairs.flatMap pairMembers).map (·.link.collection) ++ s.collections).Nodup

variable {pair : Declaration × Option Declaration}
  {pairs rest : List (Declaration × Option Declaration)}

/-- What is free for many pairs is free for some of them. -/
theorem Free.head (h : Free ds s (pair :: rest)) : Free ds s [pair] := by
  obtain ⟨hhints, hderived, hcollections⟩ := h
  simp only [List.flatMap_cons, List.map_append, List.append_assoc] at hhints hderived hcollections
  constructor
  · intro c hc
    exact hhints c (List.mem_append_left _ (by simpa using hc))
  · apply hderived.mono
    intro c hc
    rw [List.mem_append] at hc ⊢
    rw [List.mem_append]
    rcases hc with hc | hc
    · exact Or.inl (by simpa using hc)
    · exact Or.inr (Or.inr hc)
  · simp only [List.flatMap_cons, List.flatMap_nil, List.append_nil]
    exact hcollections.sublist ((List.sublist_append_right _ _).append_left _)

/-- An association can be added when its pair is free. -/
theorem exists_addAssociation_iff (hs : Free ds s []) :
    (∃ t, addAssociation ds s pair = .ok t) ↔ Free ds s [pair] := by
  have hclaims : [pair].flatMap (fun pair => pair.1.claims) = pair.1.claims := by simp
  have hlinks : ∀ graph origin, (Association.mk graph origin pair.1.link
      (pair.2.map Declaration.link)).links.map (·.collection) =
        ([pair].flatMap pairMembers).map (·.link.collection) := by
    intro graph origin
    cases hpartner : pair.2 <;> simp [Association.links, pairMembers, hpartner]
  unfold addAssociation
  rw [exists_bind_iff]
  constructor
  · rintro ⟨⟨claimed, graph, origin⟩, hclaim, hrun⟩
    obtain ⟨hhints, hderived⟩ := (exists_claimGraph_iff hs.derived).mp ⟨_, hclaim⟩
    obtain ⟨linked, hlinked, -⟩ := exists_bind_iff.mp hrun
    obtain ⟨-, hsame, -, -⟩ := claimGraph_eq_ok hclaim
    have hnodup := (exists_addLinks_iff (hsame ▸ hs.collections)).mp ⟨linked, hlinked⟩
    rw [hlinks, hsame] at hnodup
    exact ⟨hclaims ▸ hhints, hclaims ▸ hderived, hnodup⟩
  · rintro ⟨hhints, hderived, hcollections⟩
    rw [hclaims] at hhints hderived
    obtain ⟨⟨claimed, graph, origin⟩, hclaim⟩ :=
      (exists_claimGraph_iff hs.derived).mpr ⟨hhints, hderived⟩
    obtain ⟨-, hsame, -, -⟩ := claimGraph_eq_ok hclaim
    rw [← hlinks graph origin, ← hsame] at hcollections
    obtain ⟨linked, hlinked⟩ := (exists_addLinks_iff (hsame ▸ hs.collections)).mpr hcollections
    exact ⟨_, hclaim, exists_bind_iff.mpr ⟨linked, hlinked, _, rfl⟩⟩

/-- What is left after a step is what was there before it, without its pair. -/
theorem free_cons (hs : Free ds s []) (h : addAssociation ds s pair = .ok t) :
    Free ds s (pair :: rest) ↔ Free ds t rest := by
  have hpair := (exists_addAssociation_iff hs).mp ⟨t, h⟩
  have hcollections : (((pair :: rest).flatMap pairMembers).map (·.link.collection) ++
      s.collections).Perm ((rest.flatMap pairMembers).map (·.link.collection) ++
        t.collections) := by
    rw [(addAssociation_adds h).collections, ← List.map_singleton, links_ofPairs, List.map_map,
      List.flatMap_cons, List.map_append, List.append_assoc, List.flatMap_singleton]
    have hreverse := (List.reverse_perm ((pairMembers pair).map (·.link.collection))).symm
    exact (List.perm_append_comm_assoc _ _ _).trans ((hreverse.append_right _).append_left _)
  have hclaimed : ∀ c, c ∈ (pair :: rest).flatMap (fun pair => pair.1.claims) ++ s.claimed ↔
      c ∈ rest.flatMap (fun pair => pair.1.claims) ++ t.claimed := by
    unfold addAssociation at h
    obtain ⟨⟨granted, graph, origin⟩, hclaim, h⟩ := bind_eq_ok.mp h
    obtain ⟨linked, hlinked, h⟩ := bind_eq_ok.mp h
    obtain rfl := pure_eq_ok.mp h
    have hrecorded : ∀ c, c ∈ linked.claimed ↔ c ∈ pair.1.claims ++ s.claimed := by
      rw [claimed, addLinks_derived hlinked]
      exact mem_claimed_of_claimGraph hclaim
    intro c
    change _ ↔ c ∈ _ ++ linked.claimed
    simp only [List.flatMap_cons, List.mem_append, hrecorded]
    tauto
  constructor
  · rintro ⟨hhints, hderived, hnodup⟩
    refine ⟨fun c hc => hhints c (List.mem_append_right _ hc), ?_, ?_⟩
    · exact hderived.mono fun c hc => (hclaimed c).mpr hc
    · exact hcollections.nodup_iff.mp hnodup
  · rintro ⟨hhints, hderived, hnodup⟩
    refine ⟨?_, ?_, ?_⟩
    · intro c hc
      rcases List.mem_append.mp hc with hc | hc
      · exact hpair.hints c (by simpa using hc)
      · exact hhints c hc
    · exact hderived.mono fun c hc => (hclaimed c).mp hc
    · exact hcollections.nodup_iff.mpr hnodup

/-- The pairs are resolved when they are free from the beginning. -/
theorem exists_run_iff (hs : Free ds s []) :
    (∃ t, pairs.foldlM (addAssociation ds) s = .ok t) ↔ Free ds s pairs := by
  induction pairs generalizing s with
  | nil => exact ⟨fun _ => hs, fun _ => ⟨s, rfl⟩⟩
  | cons pair rest ih =>
    rw [List.foldlM_cons, exists_bind_iff]
    have hstep : ∀ t, addAssociation ds s pair = .ok t → Free ds t [] := fun t ht =>
      (free_cons hs ht).mp ((exists_addAssociation_iff hs).mp ⟨t, ht⟩)
    constructor
    · rintro ⟨t, ht, hrest⟩
      exact (free_cons hs ht).mpr ((ih (hstep t ht)).mp hrest)
    · intro h
      obtain ⟨t, ht⟩ := (exists_addAssociation_iff hs).mpr h.head
      exact ⟨t, ht, (ih (hstep t ht)).mpr ((free_cons hs ht).mp h)⟩

end Resolution

/-! ## Related names -/

/-- The related name of a declaration, as a member of its target. -/
def Declaration.related? (d : Declaration) : Option Member :=
  d.relationship.relatedName.map (Member.mk d.target.name)

theorem mem_keys_indexPlaces {declared : Dict Member Place} {places : List Place}
    {member : Member} : member ∈ Dict.keys (indexPlaces declared places) ↔
      member ∈ Dict.keys declared ∨ ∃ p ∈ places, p.link.member = member := by
  induction places generalizing declared with
  | nil => simp [indexPlaces]
  | cons p rest ih =>
    change member ∈ Dict.keys (indexPlaces (Dict.insert declared p.link.member p) rest) ↔ _
    rw [ih, Dict.mem_keys_insert, List.exists_mem_cons_iff, eq_comm, or_assoc, or_left_comm]

/-- After the run, every declaration has a place. -/
theorem Resolution.member_mem_declared {ds : List Declaration} {s t : Resolution}
    (h : (pairUp ds).foldlM (addAssociation ds) s = .ok t) {d : Declaration} (hd : d ∈ ds) :
    d.member ∈ Dict.keys t.topology.declared := by
  rw [(run_adds h).declared, mem_keys_indexPlaces]
  have hlink : d.link ∈ ((pairUp ds).map Association.ofPair).flatMap Association.links := by
    rw [links_ofPairs]
    exact List.mem_map_of_mem ((pairUp_perm ds).mem_iff.mpr hd)
  obtain ⟨a, ha, hl⟩ := List.mem_flatMap.mp hlink
  refine Or.inr ⟨⟨a, d.link⟩, ?_, rfl⟩
  exact List.mem_flatMap.mpr ⟨a, ha, Association.mem_places.mpr ⟨rfl, hl⟩⟩

namespace Topology

variable {t u : Topology} {d : Declaration}

/-- A related name can be added when it is new to the target. -/
theorem exists_addRelatedName_iff (hd : d.member ∈ Dict.keys t.declared)
    (hnodup : (Dict.keys t.related).Nodup) :
    (∃ u, t.addRelatedName d = .ok u) ↔
      (∀ name ∈ d.relationship.relatedName, name ∉ d.target.memberNames) ∧
        (d.related?.toList ++ Dict.keys t.related).Nodup := by
  unfold addRelatedName Declaration.related?
  cases hname : d.relationship.relatedName with
  | none => simpa using hnodup
  | some name =>
    cases hplace : Dict.find? t.declared d.member with
    | none => exact absurd hd (Dict.find?_eq_none_iff.mp hplace)
    | some place =>
      simp only [Option.map_some, Option.toList_some, List.singleton_append, List.nodup_cons,
        Option.mem_some_iff, forall_eq', ← Entity.hasMember_eq_false_iff,
        ← Dict.contains_eq_false_iff, hnodup, and_true]
      cases d.target.hasMember name <;>
        cases Dict.contains t.related ⟨d.target.name, name⟩ <;> simp

/-- What has been added is told apart from others exactly when it was before. -/
theorem nodup_append_keys_addRelatedName (hd : d.member ∈ Dict.keys t.declared)
    (h : t.addRelatedName d = .ok u) (others : List Member) :
    (others ++ Dict.keys u.related).Nodup ↔
      (d.related?.toList ++ others ++ Dict.keys t.related).Nodup := by
  unfold addRelatedName at h
  unfold Declaration.related?
  cases hname : d.relationship.relatedName with
  | none =>
    rw [hname] at h
    obtain rfl := Except.ok.inj h
    rfl
  | some name =>
    rw [hname] at h
    dsimp only at h
    split at h
    · cases h
    · cases hplace : Dict.find? t.declared d.member with
      | none => exact absurd hd (Dict.find?_eq_none_iff.mp hplace)
      | some place =>
        rw [hplace] at h
        dsimp only at h
        split at h
        · cases h
        · next hnew =>
          obtain rfl := Except.ok.inj h
          rw [Bool.not_eq_true, Dict.contains_eq_false_iff] at hnew
          exact Dict.nodup_append_keys_insert hnew place others

/-- Related names can be added when they are new to their targets, and apart from each other. -/
theorem exists_addRelatedNames_iff {ds : List Declaration}
    (hds : ∀ d ∈ ds, d.member ∈ Dict.keys t.declared) (hnodup : (Dict.keys t.related).Nodup) :
    (∃ u, ds.foldlM addRelatedName t = .ok u) ↔
      (∀ d ∈ ds, ∀ name ∈ d.relationship.relatedName, name ∉ d.target.memberNames) ∧
        (ds.filterMap Declaration.related? ++ Dict.keys t.related).Nodup := by
  induction ds generalizing t with
  | nil => simpa using hnodup
  | cons d rest ih =>
    obtain ⟨hd, hrest⟩ := List.forall_mem_cons.mp hds
    have hcons : (d :: rest).filterMap Declaration.related? =
        d.related?.toList ++ rest.filterMap Declaration.related? := by
      cases hrelated : d.related? <;> simp [hrelated]
    have hstep : ∀ u, t.addRelatedName d = .ok u →
        (Dict.keys u.related).Nodup ∧ ∀ d ∈ rest, d.member ∈ Dict.keys u.declared := by
      intro u hu
      constructor
      · have h := (exists_addRelatedName_iff hd hnodup).mp ⟨u, hu⟩
        simpa using (nodup_append_keys_addRelatedName hd hu []).mpr (by simpa using h.2)
      · rw [(addRelatedName_eq_ok hu).2.1]
        exact hrest
    rw [List.foldlM_cons, exists_bind_iff, List.forall_mem_cons, hcons]
    constructor
    · rintro ⟨u, hu, hrun⟩
      obtain ⟨hfree, -⟩ := (exists_addRelatedName_iff hd hnodup).mp ⟨u, hu⟩
      obtain ⟨hkeys, hdeclared⟩ := hstep u hu
      obtain ⟨hothers, hapart⟩ := (ih hdeclared hkeys).mp hrun
      exact ⟨⟨hfree, hothers⟩, (nodup_append_keys_addRelatedName hd hu _).mp hapart⟩
    · rintro ⟨⟨hfree, hothers⟩, hapart⟩
      have hnew : (d.related?.toList ++ Dict.keys t.related).Nodup := by
        rw [List.append_assoc] at hapart
        exact hapart.sublist ((List.sublist_append_right _ _).append_left _)
      obtain ⟨u, hu⟩ := (exists_addRelatedName_iff hd hnodup).mpr ⟨hfree, hnew⟩
      obtain ⟨hkeys, hdeclared⟩ := hstep u hu
      refine ⟨u, hu, (ih hdeclared hkeys).mpr ⟨hothers, ?_⟩⟩
      exact (nodup_append_keys_addRelatedName hd hu _).mpr hapart

end Topology

end GraphMapper
