import GraphMapper.Proofs.Mapper

/-!
# Entities in another order

Entities may be registered in any order, and the relationships of an entity may be declared in any
order (`Entity.Reordered`). Neither is seen by the checks of a registration, so the same lists are
accepted (`Schema.exists_ofEntities_of_reordered`). What is accepted gives the same schema up to the
order of relationships: the two are equal once the relationships of every entity stand in name order
(`Schema.arranged_eq_of_reordered`).
-/

namespace GraphMapper

open Outcome

/-! ## Registering a list -/

/-- The entry of an entity under its name. -/
def Entity.nameEntry (e : Entity) : String × Entity := (e.name, e)

/-- The entry of an entity under its collection. -/
def Entity.ownerEntry (e : Entity) : String × String := (e.collectionName, e.name)

namespace Schema

variable {s s' : Schema} {es es' : List Entity}

/-- A registration is accepted when the entity is valid and takes no name or collection that is
taken. -/
theorem register_eq_ok_iff {e : Entity} : s.register e = .ok s' ↔
    e.name ∉ Dict.keys s.entities ∧ e.Valid ∧ e.collectionName ∉ Dict.keys s.owners ∧
      s' = { entities := Dict.insert s.entities e.name e
             owners := Dict.insert s.owners e.collectionName e.name } := by
  rw [← Entity.validate_eq_ok_iff]
  refine ⟨register_eq_ok, ?_⟩
  rintro ⟨hname, hvalid, hcollection, rfl⟩
  unfold register
  refine guard_eq_ok.mpr ⟨?_, check_bind_eq_ok.mpr ⟨hvalid, guard_eq_ok.mpr ⟨?_, rfl⟩⟩⟩
  · rw [Dict.contains_eq_false_iff.mpr hname]
    exact Bool.false_ne_true
  · rw [Dict.contains_eq_false_iff.mpr hcollection]
    exact Bool.false_ne_true

/-- Entities are accepted one after the other when each is valid and no two of them, and none of
them and one that is there already, share a name or a collection. -/
theorem WellFormed.register_all_eq_ok_iff (hs : s.WellFormed) : es.foldlM register s = .ok s' ↔
    (∀ e ∈ es, e.Valid) ∧ (es.map (·.name) ++ Dict.keys s.entities).Nodup ∧
      (es.map (·.collectionName) ++ Dict.keys s.owners).Nodup ∧
      s' =
        { entities := (es.map Entity.nameEntry).foldl (fun d e => Dict.insert d e.1 e.2) s.entities
          owners := (es.map Entity.ownerEntry).foldl (fun d e => Dict.insert d e.1 e.2) s.owners } := by
  induction es generalizing s with
  | nil =>
    rw [List.foldlM_nil, pure_eq_ok]
    simp [hs.keys_nodup, hs.owners_nodup, eq_comm]
  | cons e rest ih =>
    rw [List.foldlM_cons, bind_eq_ok, List.forall_mem_cons]
    -- A step moves the name and the collection of `e` from the list to what is there already, and
    -- the names and the collections of both together stay the same.
    constructor
    · rintro ⟨t, ht, hrest⟩
      obtain ⟨hvalid, hnames, hcollections, rfl⟩ := (ih (register_wellFormed hs ht)).mp hrest
      obtain ⟨hname, he, hcollection, rfl⟩ := register_eq_ok_iff.mp ht
      exact ⟨⟨he, hvalid⟩, (Dict.nodup_append_keys_insert hname e _).mp hnames,
        (Dict.nodup_append_keys_insert hcollection e.name _).mp hcollections, rfl⟩
    · rintro ⟨⟨he, hvalid⟩, hnames, hcollections, rfl⟩
      have hname : e.name ∉ Dict.keys s.entities := fun hmem =>
        (List.nodup_cons.mp hnames).1 (List.mem_append_right _ hmem)
      have hcollection : e.collectionName ∉ Dict.keys s.owners := fun hmem =>
        (List.nodup_cons.mp hcollections).1 (List.mem_append_right _ hmem)
      have ht := register_eq_ok_iff.mpr ⟨hname, he, hcollection, rfl⟩
      refine ⟨_, ht, (ih (register_wellFormed hs ht)).mpr ⟨hvalid, ?_, ?_, rfl⟩⟩
      · exact (Dict.nodup_append_keys_insert hname e _).mpr hnames
      · exact (Dict.nodup_append_keys_insert hcollection e.name _).mpr hcollections

/-- The schema of a list of entities has their entries and nothing else. -/
theorem ofEntities_eq_ok_iff : ofEntities es = .ok s ↔
    (∀ e ∈ es, e.Valid) ∧ (es.map (·.name)).Nodup ∧ (es.map (·.collectionName)).Nodup ∧
      s = { entities := Dict.ofEntries (es.map Entity.nameEntry)
            owners := Dict.ofEntries (es.map Entity.ownerEntry) } := by
  rw [ofEntities, Registered.empty.wellFormed.register_all_eq_ok_iff]
  simp only [Dict.keys, List.map_nil, List.append_nil]
  rfl

end Schema

/-! ## Relationships in name order -/

namespace Entity

/-- The entity with its relationships in name order. -/
def arranged (e : Entity) : Entity := { e with relationships := e.sortedRelationships }

/-- The same declaration with its relationships in another order. -/
structure Rearranges (e e' : Entity) : Prop where
  name : e'.name = e.name
  collection : e'.collection = e.collection
  attributes : e'.attributes = e.attributes
  relationships : e.relationships.Perm e'.relationships

/-- Sorting by name is filling a table by name. -/
theorem map_insertByName {r : Relationship} {rs : List Relationship} (h : r.name ∉ rs.map (·.name)) :
    ((insertByName r rs).map fun r => (r.name, r)) =
      Dict.insert (rs.map fun r => (r.name, r)) r.name r := by
  induction rs with
  | nil => rfl
  | cons s rest ih =>
    rw [List.map_cons, List.mem_cons, not_or] at h
    rw [insertByName, List.map_cons, Dict.insert, if_neg (Ne.symm h.1)]
    -- `r` has a name of its own, so one of the two names precedes the other.
    by_cases hlt : Text.precedes s.name r.name = true
    · have hback : Precedence.precedes r.name s.name = false := LawfulPrecedence.asymm hlt
      simp [hlt, hback, ih h.2]
    · have hback : Precedence.precedes r.name s.name = true := by
        by_contra hback
        exact h.1 (LawfulPrecedence.connected _ _ (Bool.not_eq_true _ ▸ hback)
          (Bool.not_eq_true _ ▸ hlt))
      simp [hlt, hback]

theorem map_sortedRelationships {e : Entity} (h : (e.relationships.map (·.name)).Nodup) :
    (e.sortedRelationships.map fun r => (r.name, r)) =
      Dict.ofEntries (e.relationships.reverse.map fun r => (r.name, r)) := by
  -- The sort takes in the last relationship first, a table the first entry.
  rw [Dict.ofEntries, List.map_reverse, List.foldl_reverse, sortedRelationships]
  generalize e.relationships = rs at h ⊢
  induction rs with
  | nil => rfl
  | cons r rest ih =>
    rw [List.map_cons, List.nodup_cons] at h
    have hnew : r.name ∉ (rest.foldr insertByName []).map (·.name) := fun hmem =>
      h.1 (((foldr_insertByName_perm rest).map _).mem_iff.mp hmem)
    rw [List.foldr_cons, map_insertByName hnew, ih h.2]
    rfl

/-- Relationships of different names stand in one name order, however they are declared. -/
theorem Rearranges.sortedRelationships_eq {e e' : Entity} (h : e.Rearranges e')
    (hnodup : (e.relationships.map (·.name)).Nodup) :
    e.sortedRelationships = e'.sortedRelationships := by
  have hnodup' := ((h.relationships.map (·.name)).nodup_iff).mp hnodup
  have hperm : (e.relationships.reverse.map fun r => (r.name, r)).Perm
      (e'.relationships.reverse.map fun r => (r.name, r)) :=
    ((List.reverse_perm _).trans (h.relationships.trans (List.reverse_perm _).symm)).map _
  have hkeys : ((e.relationships.reverse.map fun r => (r.name, r)).map Prod.fst).Nodup := by
    rw [List.map_map, ← List.nodup_reverse, ← List.map_reverse, List.reverse_reverse]
    exact hnodup
  have hmap : (e.sortedRelationships.map fun r => (r.name, r)) =
      e'.sortedRelationships.map fun r => (r.name, r) := by
    rw [map_sortedRelationships hnodup, map_sortedRelationships hnodup']
    exact Dict.ofEntries_eq_of_perm hkeys hperm
  have hvalues := congrArg (List.map Prod.snd) hmap
  simpa [List.map_map, Function.comp_def] using hvalues

theorem Rearranges.arranged_eq {e e' : Entity} (h : e.Rearranges e')
    (hnodup : (e.relationships.map (·.name)).Nodup) : e.arranged = e'.arranged := by
  rw [arranged, arranged, ← h.sortedRelationships_eq hnodup, h.name, h.collection, h.attributes]

theorem Rearranges.symm {e e' : Entity} (h : e.Rearranges e') : e'.Rearranges e :=
  ⟨h.name.symm, h.collection.symm, h.attributes.symm, h.relationships.symm⟩

theorem Rearranges.collectionName {e e' : Entity} (h : e.Rearranges e') :
    e'.collectionName = e.collectionName := by
  rw [Entity.collectionName, Entity.collectionName, h.collection, h.name]

/-- Whether a declaration has faults is not a matter of order. -/
theorem Rearranges.valid {e e' : Entity} (h : e.Rearranges e') (he : e.Valid) : e'.Valid := by
  constructor
  case name => exact h.name ▸ he.name
  case collection => exact h.collectionName ▸ he.collection
  case attributes => exact h.attributes ▸ he.attributes
  case relationships =>
    intro r hr
    exact he.relationships r (h.relationships.mem_iff.mpr hr)
  case nodup =>
    have hmembers : e.memberNames.Perm e'.memberNames := by
      rw [memberNames, memberNames, h.attributes]
      exact (h.relationships.map _).append_left _
    exact hmembers.nodup_iff.mp he.nodup

/-- The same entities in another order, each with its relationships in another order. -/
def Reordered (es es' : List Entity) : Prop :=
  ∃ between, es.Perm between ∧ List.Forall₂ Rearranges between es'

namespace Reordered

variable {es es' : List Entity} (h : Reordered es es')
include h

theorem symm : Reordered es' es := by
  obtain ⟨between, hperm, hpairs⟩ := h
  obtain ⟨others, hothers, hback⟩ := List.perm_comp_forall₂ hperm hpairs
  exact ⟨others, hback.symm, (hothers.imp fun _ _ => Rearranges.symm).flip⟩

theorem exists_mem {e' : Entity} (he' : e' ∈ es') : ∃ e ∈ es, e.Rearranges e' := by
  obtain ⟨between, hperm, hpairs⟩ := h
  obtain ⟨e, he, hrearranges⟩ := exists_of_forall₂ hpairs.flip he'
  exact ⟨e, hperm.mem_iff.mpr he, hrearranges⟩

/-- A view of entities that does not see the order of relationships. -/
theorem map_perm {γ : Type} {view : Entity → γ}
    (hview : ∀ e e', e ∈ es → e.Rearranges e' → view e = view e') :
    (es.map view).Perm (es'.map view) := by
  obtain ⟨between, hperm, hpairs⟩ := h
  have hmem : ∀ e ∈ between, e ∈ es := fun e he => hperm.mem_iff.mpr he
  have hsame : between.map view = es'.map view := by
    clear hperm
    induction hpairs with
    | nil => rfl
    | cons hpair _ ih =>
      rw [List.forall_mem_cons] at hmem
      rw [List.map_cons, List.map_cons, hview _ _ hmem.1 hpair, ih hmem.2]
  exact hsame ▸ hperm.map view

end Reordered

end Entity

/-! ## Schemas of reordered lists -/

namespace Schema

variable {s s' : Schema} {es es' : List Entity} (h : Entity.Reordered es es')

/-- The schema with the relationships of every entity in name order. -/
def arranged (s : Schema) : Schema :=
  { s with entities := Dict.mapValues Entity.arranged s.entities }

include h

/-- A list is accepted in every order or in none. -/
theorem exists_ofEntities_of_reordered (hs : ofEntities es = .ok s) :
    ∃ s', ofEntities es' = .ok s' := by
  obtain ⟨hvalid, hnames, hcollections, -⟩ := ofEntities_eq_ok_iff.mp hs
  have hnamesPerm : (es.map (·.name)).Perm (es'.map (·.name)) :=
    h.map_perm fun _ _ _ hpair => hpair.name.symm
  have hcollectionsPerm : (es.map (·.collectionName)).Perm (es'.map (·.collectionName)) :=
    h.map_perm fun _ _ _ hpair => hpair.collectionName.symm
  refine ⟨_, ofEntities_eq_ok_iff.mpr ⟨?_, ?_, ?_, rfl⟩⟩
  · intro e' he'
    obtain ⟨e, he, hpair⟩ := h.exists_mem he'
    exact hpair.valid (hvalid e he)
  · exact hnamesPerm.nodup_iff.mp hnames
  · exact hcollectionsPerm.nodup_iff.mp hcollections

/-- What reordered lists leave differs in the order of relationships alone. -/
theorem arranged_eq_of_reordered (hs : ofEntities es = .ok s) (hs' : ofEntities es' = .ok s') :
    s.arranged = s'.arranged := by
  obtain ⟨hvalid, hnames, hcollections, rfl⟩ := ofEntities_eq_ok_iff.mp hs
  obtain ⟨-, -, -, rfl⟩ := ofEntities_eq_ok_iff.mp hs'
  have hentities : ((es.map Entity.nameEntry).map fun e => (e.1, e.2.arranged)).Perm
      ((es'.map Entity.nameEntry).map fun e => (e.1, e.2.arranged)) := by
    rw [List.map_map, List.map_map]
    refine h.map_perm fun e e' he hpair => ?_
    have hnodup := (List.nodup_append.mp (hvalid e he).nodup).2.1
    exact Prod.ext hpair.name.symm (hpair.arranged_eq hnodup)
  have howners : (es.map Entity.ownerEntry).Perm (es'.map Entity.ownerEntry) :=
    h.map_perm fun e e' _ hpair => Prod.ext hpair.collectionName.symm hpair.name.symm
  rw [arranged, arranged, Dict.mapValues_ofEntries, Dict.mapValues_ofEntries,
    Dict.ofEntries_eq_of_perm ?_ hentities, Dict.ofEntries_eq_of_perm ?_ howners]
  · simpa [Function.comp_def, Entity.ownerEntry] using hcollections
  · simpa [Function.comp_def, Entity.nameEntry] using hnames

end Schema

end GraphMapper
