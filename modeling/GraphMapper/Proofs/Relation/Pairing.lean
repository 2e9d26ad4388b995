import GraphMapper.Proofs.Schema.Registered
import GraphMapper.Relation.Pairing

/-!
# The declarations of a registered schema and their pairs

`mem_declarations_iff` says which declarations a schema has, `members_nodup` that each member of an
entity is declared once. Pairing only rearranges: `pairUp_perm` puts the declarations of all pairs
back together, and the two of one pair lead in opposite directions (`pairsWith_of_mem_pairUp`).

Pairing also leaves as few declarations alone as possible. Whether two of them belong together is a
matter of their courses alone, and `pairsOn_pairUp` counts the pairs of a course: of two different
entities the side with fewer declarations is used up, and of an entity's declarations to itself at
most one is left.
-/

namespace GraphMapper

open Outcome

/-! ## Declarations -/

theorem insertByName_perm (r : Relationship) (rs : List Relationship) :
    (insertByName r rs).Perm (r :: rs) := by
  induction rs with
  | nil => rfl
  | cons s rest ih =>
    unfold insertByName
    split
    · exact (ih.cons s).trans (List.Perm.swap r s rest)
    · rfl

theorem foldr_insertByName_perm (rs : List Relationship) : (rs.foldr insertByName []).Perm rs := by
  induction rs with
  | nil => rfl
  | cons r rest ih => exact (insertByName_perm r _).trans (ih.cons r)

theorem Entity.sortedRelationships_perm (e : Entity) :
    e.sortedRelationships.Perm e.relationships := foldr_insertByName_perm e.relationships

namespace Schema

variable {s : Schema}

theorem declaration_eq_ok_iff {e : Entity} {r : Relationship} {d : Declaration} :
    s.declaration e r = .ok d ↔
      d.source = e ∧ d.relationship = r ∧ s.entity? r.target = some d.target := by
  unfold declaration
  cases htarget : s.entity? r.target with
  | none => simp
  | some target =>
    obtain ⟨source, relationship, target'⟩ := d
    simp only [Except.ok.injEq, Declaration.mk.injEq, Option.some.injEq]
    constructor
    · rintro ⟨rfl, rfl, rfl⟩
      exact ⟨rfl, rfl, rfl⟩
    · rintro ⟨rfl, rfl, rfl⟩
      exact ⟨rfl, rfl, rfl⟩

theorem declarations_eq_ok {ds : List Declaration} (h : s.declarations = .ok ds) :
    ∃ perEntity, s.all.mapM (fun e => e.sortedRelationships.mapM (s.declaration e)) =
      .ok perEntity ∧ perEntity.flatten = ds := by
  obtain ⟨perEntity, hper, h⟩ := bind_eq_ok.mp h
  exact ⟨perEntity, hper, pure_eq_ok.mp h⟩

/-- The declarations are the relationships of the members, each with the member that it names as its
target. -/
theorem mem_declarations_iff {ds : List Declaration} (h : s.declarations = .ok ds)
    {d : Declaration} :
    d ∈ ds ↔ d.source ∈ s.all ∧ d.relationship ∈ d.source.relationships ∧
      s.entity? d.relationship.target = some d.target := by
  obtain ⟨perEntity, hper, rfl⟩ := declarations_eq_ok h
  rw [List.mem_flatten]
  constructor
  · rintro ⟨inner, hinner, hd⟩
    obtain ⟨e, he, hrun⟩ := (mem_mapM_iff hper).mp hinner
    obtain ⟨r, hr, hdecl⟩ := (mem_mapM_iff hrun).mp hd
    obtain ⟨rfl, rfl, htarget⟩ := declaration_eq_ok_iff.mp hdecl
    exact ⟨he, d.source.sortedRelationships_perm.mem_iff.mp hr, htarget⟩
  · rintro ⟨he, hr, htarget⟩
    obtain ⟨inner, hinner, hrun⟩ := exists_of_mapM hper he
    refine ⟨inner, hinner, (mem_mapM_iff hrun).mpr ⟨d.relationship, ?_, ?_⟩⟩
    · exact d.source.sortedRelationships_perm.mem_iff.mpr hr
    · exact declaration_eq_ok_iff.mpr ⟨rfl, rfl, htarget⟩

/-- No relationship of a member is left out. -/
theorem exists_declaration {ds : List Declaration} (h : s.declarations = .ok ds) {e : Entity}
    (he : e ∈ s.all) {r : Relationship} (hr : r ∈ e.relationships) :
    ∃ d ∈ ds, d.source = e ∧ d.relationship = r := by
  obtain ⟨perEntity, hper, rfl⟩ := declarations_eq_ok h
  obtain ⟨inner, hinner, hrun⟩ := exists_of_mapM hper he
  obtain ⟨d, hd, hdecl⟩ := exists_of_mapM hrun (e.sortedRelationships_perm.mem_iff.mpr hr)
  obtain ⟨hsource, hrelationship, -⟩ := declaration_eq_ok_iff.mp hdecl
  exact ⟨d, List.mem_flatten.mpr ⟨inner, hinner, hd⟩, hsource, hrelationship⟩

/-- All declarations can be listed when their targets are registered. -/
theorem exists_declarations_iff : (∃ ds, s.declarations = .ok ds) ↔
    ∀ e ∈ s.all, ∀ r ∈ e.relationships, s.contains r.target = true := by
  have hdeclaration : ∀ e r, (∃ d, s.declaration e r = .ok d) ↔ s.contains r.target = true := by
    intro e r
    rw [contains, Dict.contains, Option.isSome_iff_exists]
    constructor
    · rintro ⟨d, hd⟩
      exact ⟨d.target, (declaration_eq_ok_iff.mp hd).2.2⟩
    · rintro ⟨target, htarget⟩
      exact ⟨⟨e, r, target⟩, declaration_eq_ok_iff.mpr ⟨rfl, rfl, htarget⟩⟩
  have hpure : ∀ perEntity : List (List Declaration),
      (∃ ds, (pure perEntity.flatten : Except Error _) = .ok ds) ↔ True :=
    fun perEntity => iff_of_true ⟨_, rfl⟩ trivial
  unfold declarations
  simp only [exists_bind_iff, hpure, and_true, exists_mapM_iff, hdeclaration]
  exact forall₂_congr fun e _ => forall_congr' fun r =>
    imp_congr_left e.sortedRelationships_perm.mem_iff

/-- What holds of all declarations holds of all relationships. -/
theorem forall_declarations_iff {ds : List Declaration} (h : s.declarations = .ok ds)
    {P : Entity → Relationship → Prop} :
    (∀ d ∈ ds, P d.source d.relationship) ↔ ∀ e ∈ s.all, ∀ r ∈ e.relationships, P e r := by
  constructor
  · intro hall e he r hr
    obtain ⟨d, hd, rfl, rfl⟩ := exists_declaration h he hr
    exact hall d hd
  · intro hall d hd
    obtain ⟨he, hr, -⟩ := (mem_declarations_iff h).mp hd
    exact hall _ he _ hr

/-- Declarations that belong together lead from one collection to another and back. -/
theorem WellFormed.collections_of_pairsWith (hs : s.WellFormed) {ds : List Declaration}
    (h : s.declarations = .ok ds) {d d' : Declaration} (hd : d ∈ ds) (hd' : d' ∈ ds)
    (hpair : d.pairsWith d' = true) :
    d.link.toCollection = d'.link.fromCollection ∧
      d'.link.toCollection = d.link.fromCollection := by
  obtain ⟨hsource, -, htarget⟩ := (mem_declarations_iff h).mp hd
  obtain ⟨hsource', -, htarget'⟩ := (mem_declarations_iff h).mp hd'
  unfold Declaration.pairsWith at hpair
  split at hpair
  · simp only [Bool.and_eq_true, beq_iff_eq] at hpair
    obtain ⟨⟨-, hname⟩, hname'⟩ := hpair
    rw [hname, hs.entity?_eq_some_iff.mpr ⟨hsource', rfl⟩] at htarget
    rw [hname', hs.entity?_eq_some_iff.mpr ⟨hsource, rfl⟩] at htarget'
    constructor
    · exact congrArg Entity.collectionName (Option.some.inj htarget).symm
    · exact congrArg Entity.collectionName (Option.some.inj htarget').symm
  · cases hpair

/-- What can be said of a declaration by its source and its relationship, entity by entity. -/
theorem map_declarations {γ : Type} (view : Entity → Relationship → γ) {ds : List Declaration}
    (h : s.declarations = .ok ds) :
    (ds.map fun d => view d.source d.relationship) =
      s.all.flatMap fun e => e.sortedRelationships.map (view e) := by
  obtain ⟨perEntity, hper, rfl⟩ := declarations_eq_ok h
  have hinner : perEntity.map (List.map fun d => view d.source d.relationship) =
      s.all.map fun e => e.sortedRelationships.map (view e) := by
    refine map_of_mapM ?_ hper
    intro e _ inner hrun
    refine map_of_mapM ?_ hrun
    intro r _ d hd
    obtain ⟨rfl, rfl, -⟩ := declaration_eq_ok_iff.mp hd
    rfl
  rw [List.map_flatten, hinner, List.flatMap_def]

theorem WellFormed.names_nodup (hs : s.WellFormed) : (s.all.map (·.name)).Nodup := by
  have hkeys : Dict.keys s.entities = s.all.map (·.name) := by
    rw [all, Dict.values, List.map_map]
    exact List.map_congr_left hs.key_eq_name
  exact hkeys ▸ hs.keys_nodup

/-- No member is declared twice in a schema. -/
theorem members_nodup (hs : s.WellFormed) {ds : List Declaration}
    (h : s.declarations = .ok ds) : (ds.map Declaration.member).Nodup := by
  have hmembers := map_declarations (fun e r => (⟨e.name, r.name⟩ : Member)) h
  change ds.map Declaration.member = _ at hmembers
  rw [hmembers, List.nodup_flatMap]
  constructor
  · intro e he
    have hnames : (e.sortedRelationships.map (·.name)).Nodup :=
      ((e.sortedRelationships_perm.map _).nodup_iff).mpr
        (Entity.relationship_names_nodup (hs.valid e he))
    refine List.Nodup.of_map Member.name ?_
    rwa [List.map_map]
  · apply (List.pairwise_map.mp hs.names_nodup).imp
    intro e e' hne
    change List.Disjoint _ _
    rw [List.disjoint_left]
    intro member hmem hmem'
    obtain ⟨r, -, rfl⟩ := List.mem_map.mp hmem
    obtain ⟨r', -, heq⟩ := List.mem_map.mp hmem'
    exact hne (congrArg Member.entity heq).symm

end Schema

/-! ## Pairs -/

/-- What is extracted passes the test, and nothing else is lost. -/
theorem extractFirst_eq_some {α : Type} {test : α → Bool} {as others : List α} {found : α}
    (h : extractFirst test as = some (found, others)) :
    test found = true ∧ (found :: others).Perm as := by
  induction as generalizing others with
  | nil => simp [extractFirst] at h
  | cons a rest ih =>
    unfold extractFirst at h
    split at h
    · next htest =>
      obtain ⟨rfl, rfl⟩ := Prod.mk.inj (Option.some.inj h)
      exact ⟨htest, .refl _⟩
    · obtain ⟨⟨f, os⟩, hrest, heq⟩ := Option.map_eq_some_iff.mp h
      obtain ⟨rfl, rfl⟩ := Prod.mk.inj heq
      obtain ⟨htest, hperm⟩ := ih hrest
      exact ⟨htest, (List.Perm.swap a f os).trans (hperm.cons a)⟩

theorem pairUp_cons_of_some {d partner : Declaration} {rest others : List Declaration}
    (h : extractFirst d.pairsWith rest = some (partner, others)) :
    pairUp (d :: rest) = (d, some partner) :: pairUp others := by
  rw [pairUp]
  split
  · next found =>
    obtain ⟨rfl, rfl⟩ := Prod.mk.inj (Option.some.inj (h.symm.trans found))
    rfl
  · next hnone => exact absurd (h.symm.trans hnone) (by simp)

theorem pairUp_cons_of_none {d : Declaration} {rest : List Declaration}
    (h : extractFirst d.pairsWith rest = none) :
    pairUp (d :: rest) = (d, none) :: pairUp rest := by
  rw [pairUp]
  split
  · next found => exact absurd (h.symm.trans found) (by simp)
  · rfl

theorem extractFirst_eq_none {α : Type} {test : α → Bool} {as : List α} :
    extractFirst test as = none ↔ ∀ a ∈ as, test a = false := by
  induction as with
  | nil => simp [extractFirst]
  | cons a rest ih =>
    unfold extractFirst
    split
    · next htest => simp [htest]
    · next htest => simp [ih, htest]

/-- The declarations of a pair. -/
def pairMembers (pair : Declaration × Option Declaration) : List Declaration :=
  pair.1 :: pair.2.toList

/-- Every declaration is in exactly one pair, and exactly once. -/
theorem pairUp_perm (ds : List Declaration) : ((pairUp ds).flatMap pairMembers).Perm ds := by
  induction ds using pairUp.induct with
  | case1 => simp [pairUp]
  | case2 d rest partner others hfound ih =>
    rw [pairUp_cons_of_some hfound]
    exact ((ih.cons partner).trans (extractFirst_eq_some hfound).2).cons d
  | case3 d rest hnone ih =>
    rw [pairUp_cons_of_none hnone]
    exact ih.cons d

/-- The two declarations of a pair belong together. -/
theorem pairsWith_of_mem_pairUp {ds : List Declaration} {d partner : Declaration}
    (h : (d, some partner) ∈ pairUp ds) : d.pairsWith partner = true := by
  induction ds using pairUp.induct with
  | case1 => simp [pairUp] at h
  | case2 d' rest partner' others hfound ih =>
    rw [pairUp_cons_of_some hfound] at h
    rw [List.mem_cons] at h
    rcases h with heq | h
    · obtain ⟨rfl, hp⟩ := Prod.mk.inj heq
      obtain rfl := Option.some.inj hp
      exact (extractFirst_eq_some hfound).1
    · exact ih h
  | case3 d' rest hnone ih =>
    rw [pairUp_cons_of_none hnone] at h
    rw [List.mem_cons] at h
    rcases h with heq | h
    · exact absurd (Prod.mk.inj heq).2 (by simp)
    · exact ih h

/-! ## The number of pairs -/

/-- The graph that a declaration gives, and the entities that it leads from and to. -/
structure Course where
  graph : Option String
  source : String
  target : String
  deriving DecidableEq

/-- The same way in the opposite direction. -/
def Course.back (c : Course) : Course := ⟨c.graph, c.target, c.source⟩

@[simp] theorem Course.back_back (c : Course) : c.back.back = c := rfl

theorem Course.back_eq_iff {c c' : Course} : c.back = c' ↔ c = c'.back :=
  ⟨fun h => h ▸ rfl, fun h => h ▸ rfl⟩

def Declaration.course (d : Declaration) : Course :=
  ⟨d.relationship.graph, d.source.name, d.relationship.target⟩

/-- Declarations belong together when one takes the course of the other back. -/
theorem Declaration.pairsWith_iff {a b : Declaration} :
    a.pairsWith b = true ↔ a.course.graph.isSome = true ∧ b.course = a.course.back := by
  unfold pairsWith course Course.back
  cases ha : a.relationship.graph with
  | none => simp
  | some graph =>
    cases hb : b.relationship.graph with
    | none => simp
    | some graph' =>
      simp only [Bool.and_eq_true, beq_iff_eq, Option.isSome_some, Course.mk.injEq,
        Option.some.injEq, true_and]
      constructor
      · rintro ⟨⟨rfl, htarget⟩, htarget'⟩
        exact ⟨rfl, htarget.symm, htarget'⟩
      · rintro ⟨rfl, hsource, htarget'⟩
        exact ⟨⟨rfl, hsource.symm⟩, htarget'⟩

/-- How many of the pairs join two declarations, one of them with the given course. -/
def pairsOn (c : Course) (pairs : List (Declaration × Option Declaration)) : Nat :=
  pairs.countP fun p => p.2.isSome && (p.1.course == c || p.1.course == c.back)

theorem pairsOn_cons (c : Course) (d : Declaration) (partner? : Option Declaration)
    (pairs : List (Declaration × Option Declaration)) :
    pairsOn c ((d, partner?) :: pairs) = pairsOn c pairs +
      if partner?.isSome ∧ (d.course = c ∨ d.course = c.back) then 1 else 0 := by
  rw [pairsOn, List.countP_cons, pairsOn]
  simp

/-- A pair takes one declaration from each side of a course, or two from a side that is both. -/
theorem count_courses_of_some {d partner : Declaration} {rest others : List Declaration}
    (h : extractFirst d.pairsWith rest = some (partner, others)) (c : Course) :
    ((d :: rest).map Declaration.course).count c =
      (others.map Declaration.course).count c + (if d.course = c.back then 1 else 0) +
        if d.course = c then 1 else 0 := by
  obtain ⟨htest, hperm⟩ := extractFirst_eq_some h
  obtain ⟨-, hpartner⟩ := Declaration.pairsWith_iff.mp htest
  rw [List.map_cons, List.count_cons, ← (hperm.map _).count_eq, List.map_cons, List.count_cons,
    hpartner]
  simp only [beq_iff_eq, Course.back_eq_iff]

/-- A declaration that stays alone finds nothing on its course back. -/
theorem count_courses_of_none {d : Declaration} {rest : List Declaration}
    (h : extractFirst d.pairsWith rest = none) (hgraph : d.course.graph.isSome = true) :
    (rest.map Declaration.course).count d.course.back = 0 := by
  rw [List.count_eq_zero, List.mem_map]
  rintro ⟨x, hx, heq⟩
  have htest := extractFirst_eq_none.mp h x hx
  rw [Declaration.pairsWith_iff.mpr ⟨hgraph, heq⟩] at htest
  cases htest

/-- As many pairs are made on a course as there can be. -/
theorem pairsOn_pairUp {c : Course} (hgraph : c.graph.isSome = true) (ds : List Declaration) :
    pairsOn c (pairUp ds) =
      if c = c.back then (ds.map Declaration.course).count c / 2
      else min ((ds.map Declaration.course).count c) ((ds.map Declaration.course).count c.back) := by
  induction ds using pairUp.induct with
  | case1 => simp [pairUp, pairsOn]
  | case2 d rest partner others hfound ih =>
    rw [pairUp_cons_of_some hfound, pairsOn_cons, ih, count_courses_of_some hfound,
      count_courses_of_some hfound]
    simp only [Course.back_back, Option.isSome_some, true_and]
    by_cases hsame : c = c.back
    · simp only [← hsame, or_self, if_true]
      split <;> omega
    · rw [if_neg hsame, if_neg hsame]
      by_cases hc : d.course = c
      · simp only [hc, hsame, true_or, if_true, if_false]
        omega
      · by_cases hback : d.course = c.back
        · simp only [hback, Ne.symm hsame, or_true, if_true, if_false]
          omega
        · simp [hc, hback]
  | case3 d rest hnone ih =>
    rw [pairUp_cons_of_none hnone, pairsOn_cons, ih, List.map_cons, List.count_cons,
      List.count_cons]
    simp only [beq_iff_eq, Option.isSome_none, Bool.false_eq_true, false_and, if_false]
    by_cases hc : d.course = c
    · have hused := count_courses_of_none hnone (hc ▸ hgraph)
      rw [hc] at hused
      by_cases hsame : c = c.back
      · rw [← hsame] at hused
        simp only [← hsame, hused, hc, if_true]
      · simp [hsame, hused, hc]
    · by_cases hback : d.course = c.back
      · have hused := count_courses_of_none hnone (hback ▸ hgraph)
        rw [hback, Course.back_back] at hused
        have hsame : c ≠ c.back := fun h => hc (hback.trans h.symm)
        simp [hsame, Ne.symm hsame, hused, hback]
      · simp [hc, hback]

end GraphMapper
