import GraphMapper.Proofs.Dict
import GraphMapper.Proofs.Schema.Valid
import GraphMapper.Schema.Basic

/-!
# Registered schemas

The schemas that registrations reach from the empty one. In each of them (`WellFormed`) an entity
stands under its own name, every entity is valid on its own, and the owners of collections are the
inverse of `Entity.collectionName`; `register_wellFormed` is the step that keeps all of it.

The members of a valid entity have names of their own that nobody reserves
(`Entity.checked_of_validate`).
-/

namespace GraphMapper

open Outcome

/-! ## What validity says about names -/

namespace Entity

variable {e : Entity}

/-- What a run of checks over members with names has found, each name checked against those before
it. -/
structure Checked {α : Type} (name : α → String) (seen : List String) (members : List α) : Prop where
  nodup : (members.map name).Nodup
  new : ∀ a ∈ members, name a ∉ seen
  isMemberName : ∀ a ∈ members, isMemberName (name a) = true

/-- What a valid entity says about the names of its members. -/
theorem checked_of_validate (h : e.validate = .ok ()) :
    Checked Attribute.name [] e.attributes ∧
      Checked Relationship.name (e.attributes.map (·.name)).reverse e.relationships ∧
      ∀ r ∈ e.relationships, ∀ related ∈ r.relatedName, isMemberName related = true := by
  have hvalid := validate_eq_ok_iff.mp h
  obtain ⟨hattributes, hrelationships, hapart⟩ := List.nodup_append.mp hvalid.nodup
  refine ⟨⟨hattributes, by simp, fun a ha => (hvalid.attributes a ha).name⟩,
    ⟨hrelationships, ?_, fun r hr => (hvalid.relationships r hr).name⟩, ?_⟩
  · intro r hr hmem
    exact hapart _ (List.mem_reverse.mp hmem) _ (List.mem_map_of_mem hr) rfl
  · intro r hr related hrelated
    have hnames := (hvalid.relationships r hr).relatedName
    rw [Option.mem_def.mp hrelated] at hnames
    simpa using hnames

/-- A valid entity declares no relationship twice. -/
theorem relationship_names_nodup (h : e.validate = .ok ()) :
    (e.relationships.map (·.name)).Nodup := (checked_of_validate h).2.1.nodup

/-- An attribute is found under its name. -/
theorem attribute?_of_mem (hvalid : e.validate = .ok ()) {a : Attribute} (ha : a ∈ e.attributes) :
    e.attribute? a.name = some a := by
  obtain ⟨hattributes, -, -⟩ := checked_of_validate hvalid
  cases hfound : e.attribute? a.name with
  | none => simpa using (List.find?_eq_none.mp hfound) a ha
  | some a' =>
    have hname : a'.name = a.name := by simpa using List.find?_some hfound
    have hmem : a' ∈ e.attributes := List.mem_of_find?_eq_some hfound
    rw [List.inj_on_of_nodup_map hattributes.nodup hmem ha hname]

/-- The names that the database keeps for itself are no names of members. -/
theorem not_mem_reservedNames {name : String} (h : isMemberName name = true) :
    name ∉ reservedNames := by
  rw [isMemberName, Bool.and_eq_true] at h
  simpa using h.2

end Entity

/-! ## Registrations -/

namespace Schema

/-- The schemas that registrations reach; a refused one leaves the schema as it was. -/
inductive Registered : Schema → Prop
  | empty : Registered {}
  | register {s s' : Schema} {e : Entity} :
      Registered s → s.register e = .ok s' → Registered s'

/-- What an accepted registration has checked and what it leaves. -/
theorem register_eq_ok {s s' : Schema} {e : Entity} (h : s.register e = .ok s') :
    e.name ∉ Dict.keys s.entities ∧ e.validate = .ok () ∧
      e.collectionName ∉ Dict.keys s.owners ∧
      s' = { entities := Dict.insert s.entities e.name e
             owners := Dict.insert s.owners e.collectionName e.name } := by
  unfold register at h
  obtain ⟨hname, h⟩ := guard_eq_ok.mp h
  obtain ⟨_, hvalid, h⟩ := bind_eq_ok.mp h
  obtain ⟨hcollection, h⟩ := guard_eq_ok.mp h
  refine ⟨?_, hvalid, ?_, (pure_eq_ok.mp h).symm⟩
  · exact Dict.contains_eq_false_iff.mp (Bool.not_eq_true _ ▸ hname)
  · exact Dict.contains_eq_false_iff.mp (Bool.not_eq_true _ ▸ hcollection)

/-- An entity is found as soon as it is registered. -/
theorem lookup_register {s s' : Schema} {e : Entity} (h : s.register e = .ok s') :
    s'.lookup e.name = .ok e := by
  obtain ⟨-, -, -, rfl⟩ := register_eq_ok h
  rw [lookup, entity?, Dict.find?_insert, if_pos rfl]

/-- What holds of a schema at every point of its registration. -/
structure WellFormed (s : Schema) : Prop where
  keys_nodup : (Dict.keys s.entities).Nodup
  key_eq_name : ∀ entry ∈ s.entities, entry.1 = entry.2.name
  owners_nodup : (Dict.keys s.owners).Nodup
  owner_iff : ∀ collection name, (collection, name) ∈ s.owners ↔
    ∃ e ∈ s.all, e.collectionName = collection ∧ e.name = name
  valid : ∀ e ∈ s.all, e.validate = .ok ()

theorem mem_all_register {s : Schema} {e : Entity} (h : e.name ∉ Dict.keys s.entities)
    (e' : Entity) : e' ∈ Dict.values (Dict.insert s.entities e.name e) ↔ e' = e ∨ e' ∈ s.all := by
  have hperm := (Dict.insert_perm h e).map Prod.snd
  rw [Dict.values, hperm.mem_iff]
  simp [all, Dict.values]

/-- Registration keeps a schema well formed. -/
theorem register_wellFormed {s s' : Schema} {e : Entity} (hs : s.WellFormed)
    (h : s.register e = .ok s') : s'.WellFormed := by
  obtain ⟨hname, hvalid, hcollection, rfl⟩ := register_eq_ok h
  have hall := mem_all_register hname
  have howners := Dict.insert_perm hcollection e.name
  constructor
  · rw [(Dict.keys_insert_perm hname e).nodup_iff, List.nodup_cons]
    exact ⟨hname, hs.keys_nodup⟩
  · intro entry hentry
    rcases List.mem_cons.mp ((Dict.insert_perm hname e).mem_iff.mp hentry) with rfl | hentry
    · rfl
    · exact hs.key_eq_name entry hentry
  · rw [(Dict.keys_insert_perm hcollection e.name).nodup_iff, List.nodup_cons]
    exact ⟨hcollection, hs.owners_nodup⟩
  · intro collection name
    rw [howners.mem_iff, List.mem_cons, hs.owner_iff]
    constructor
    · rintro (heq | ⟨e', he', hc, hn⟩)
      · obtain ⟨rfl, rfl⟩ := Prod.mk.inj heq
        exact ⟨e, (hall e).mpr (Or.inl rfl), rfl, rfl⟩
      · exact ⟨e', (hall e').mpr (Or.inr he'), hc, hn⟩
    · rintro ⟨e', he', rfl, rfl⟩
      rcases (hall e').mp he' with rfl | he'
      · exact Or.inl rfl
      · exact Or.inr ⟨e', he', rfl, rfl⟩
  · intro e' he'
    rcases (hall e').mp he' with rfl | he'
    · exact hvalid
    · exact hs.valid e' he'

theorem Registered.wellFormed {s : Schema} (h : s.Registered) : s.WellFormed := by
  induction h with
  | empty => constructor <;> simp [Dict.keys, all, Dict.values]
  | register _ hregister ih => exact register_wellFormed ih hregister

/-! ## Look-ups in a well-formed schema -/

namespace WellFormed

variable {s : Schema} (hs : s.WellFormed)
include hs

theorem mem_all_iff {e : Entity} : e ∈ s.all ↔ (e.name, e) ∈ s.entities := by
  constructor
  · intro h
    obtain ⟨entry, hentry, rfl⟩ := List.mem_map.mp h
    exact hs.key_eq_name entry hentry ▸ hentry
  · exact fun h => List.mem_map_of_mem h

/-- The entity of a name is the member of that name. -/
theorem entity?_eq_some_iff {name : String} {e : Entity} :
    s.entity? name = some e ↔ e ∈ s.all ∧ e.name = name := by
  rw [entity?, Dict.find?_eq_some_iff hs.keys_nodup, hs.mem_all_iff]
  constructor
  · intro h
    have heq : name = e.name := hs.key_eq_name _ h
    exact ⟨heq ▸ h, heq.symm⟩
  · rintro ⟨h, rfl⟩
    exact h

theorem lookup_eq_ok {name : String} {e : Entity} (h : s.lookup name = .ok e) :
    e ∈ s.all ∧ e.name = name := by
  unfold lookup at h
  split at h
  · next found =>
    obtain rfl := Except.ok.inj h
    exact hs.entity?_eq_some_iff.mp found
  · cases h

theorem lookup_of_mem {e : Entity} (he : e ∈ s.all) : s.lookup e.name = .ok e := by
  rw [lookup, hs.entity?_eq_some_iff.mpr ⟨he, rfl⟩]

/-- The owner of a collection is the member that stores its documents there. -/
theorem ofCollection?_eq_some_iff {collection : String} {e : Entity} :
    s.ofCollection? collection = some e ↔ e ∈ s.all ∧ e.collectionName = collection := by
  rw [ofCollection?, Option.bind_eq_some_iff]
  constructor
  · rintro ⟨name, howner, hname⟩
    obtain ⟨e', he', hc, rfl⟩ := (hs.owner_iff _ _).mp (Dict.mem_of_find?_eq_some howner)
    have hsame : s.entity? e'.name = some e' := hs.entity?_eq_some_iff.mpr ⟨he', rfl⟩
    obtain rfl : e' = e := Option.some.inj (hsame.symm.trans hname)
    exact ⟨he', hc⟩
  · rintro ⟨he, rfl⟩
    refine ⟨e.name, ?_, hs.entity?_eq_some_iff.mpr ⟨he, rfl⟩⟩
    exact (Dict.find?_eq_some_iff hs.owners_nodup).mpr ((hs.owner_iff _ _).mpr ⟨e, he, rfl, rfl⟩)

/-- The collections of a schema are those of its members. -/
theorem mem_collections_iff {collection : String} :
    collection ∈ s.collections ↔ ∃ e ∈ s.all, e.collectionName = collection := by
  constructor
  · intro h
    obtain ⟨⟨_, name⟩, hentry, rfl⟩ := List.mem_map.mp h
    obtain ⟨e, he, hcollection, -⟩ := (hs.owner_iff _ name).mp hentry
    exact ⟨e, he, hcollection⟩
  · rintro ⟨e, he, rfl⟩
    exact List.mem_map_of_mem ((hs.owner_iff _ e.name).mpr ⟨e, he, rfl, rfl⟩)

theorem ofCollection_eq_ok_iff {collection : String} {e : Entity} :
    s.ofCollection collection = .ok e ↔ e ∈ s.all ∧ e.collectionName = collection := by
  rw [← hs.ofCollection?_eq_some_iff, ofCollection]
  cases s.ofCollection? collection <;> simp

/-- No two members store their documents in one collection. -/
theorem collectionName_injective {e e' : Entity} (he : e ∈ s.all) (he' : e' ∈ s.all)
    (h : e.collectionName = e'.collectionName) : e = e' := by
  have h1 := hs.ofCollection?_eq_some_iff.mpr ⟨he, h⟩
  have h2 := hs.ofCollection?_eq_some_iff.mpr ⟨he', rfl⟩
  exact Option.some.inj (h1.symm.trans h2)

end WellFormed

end Schema

end GraphMapper
