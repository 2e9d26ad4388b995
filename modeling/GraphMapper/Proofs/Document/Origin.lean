import GraphMapper.Proofs.Document.Reading
import GraphMapper.Proofs.Mapper

/-!
# What read documents are, and whose

A document that was read conforms to its entity (`Entity.conforms_of_read`): it has the declared
attributes and no others, each with a value of its type, and its relations are those of the entity.

A stored document with an `_id` can be read as one entity at most, the one whose collection the `_id`
names (`Entity.origin_of_read`), so that it makes no difference whether the entity was given or chosen
(`Mapper.Resolved.read_conforms`).
-/

namespace GraphMapper

open Outcome

/-- The document is one of the entity, and has nothing that the entity does not declare. -/
structure Document.Conforms (d : Document) (e : Entity) (t : Topology) : Prop where
  entity : d.entity = e.name
  key : ∃ key, d.key = some key
  attributes : (Dict.keys d.attributes).Perm (e.attributes.map (·.name))
  values : ∀ a ∈ e.attributes, ∃ v, Dict.find? d.attributes a.name = some v ∧
    a.type.accepts v = true ∧ (a.required = true → v.isNull = false)
  relations : Dict.keys d.relations ⊆ t.relationNames e.name

namespace Entity

variable {e : Entity} {t : Topology}

theorem map_fst_readAttributes {stored : Dict String Json} {as : List Attribute}
    {values : List (String × Value)} (h : e.readAttributes stored as = .ok values) :
    values.map Prod.fst = as.map (·.name) := by
  rw [readAttributes_eq_mapM] at h
  refine map_of_mapM (fun a _ entry hentry => ?_) h
  obtain ⟨v, -, hentry⟩ := bind_eq_ok.mp hentry
  obtain rfl := pure_eq_ok.mp hentry
  rfl

/-- An `_id` that is there names the collection of the entity. -/
theorem origin_of_read {stored : Json} {d : Document} (h : e.read t stored = .ok d) {id : Json}
    (hid : stored.get? "_id" = some id) :
    ∃ handle, Handle.ofJson? id = some handle ∧ handle.collection = e.collectionName := by
  obtain ⟨members, key, values, relations, rfl, -, hcheck, -, -, -⟩ := read_eq_ok_iff.mp h
  change Dict.find? members "_id" = some id at hid
  unfold checkId at hcheck
  rw [hid] at hcheck
  dsimp only at hcheck
  split at hcheck
  · cases hcheck
  · next handle hhandle =>
    split at hcheck
    · next hcollection => exact ⟨handle, hhandle, hcollection⟩
    · cases hcheck

end Entity

namespace Mapper

variable {m : Mapper}

variable (hm : m.Resolved)
include hm

/-- A document that was read conforms to its entity. -/
theorem Resolved.conforms_of_read {e : Entity} (he : e ∈ m.schema.all) {stored : Json} {d : Document}
    (h : e.read m.topology stored = .ok d) : d.Conforms e m.topology := by
  obtain ⟨hattributes, -, -⟩ := Entity.checked_of_validate (hm.wellFormed.valid e he)
  obtain ⟨members, key, values, relations, rfl, -, -, hvalues, hrelations, rfl⟩ :=
    Entity.read_eq_ok_iff.mp h
  have hnames : values.map Prod.fst = e.attributes.map (·.name) :=
    Entity.map_fst_readAttributes hvalues
  refine ⟨rfl, ⟨key, rfl⟩, ?_, ?_, ?_⟩
  · have hnodup : (values.map Prod.fst).Nodup := hnames ▸ hattributes.nodup
    rw [← hnames]
    exact (Dict.ofEntries_perm hnodup).map Prod.fst
  · intro a ha
    obtain ⟨v, hv, hfound⟩ := Entity.readAttributes_eq_ok hattributes.nodup hvalues a ha
    obtain ⟨haccepts, hallowed⟩ := Entity.readAttribute_eq_ok hv
    refine ⟨v, hfound, haccepts, fun hrequired => ?_⟩
    rw [Bool.eq_false_iff]
    exact fun hnull => hallowed ⟨hnull, hrequired⟩
  · obtain ⟨hkeys, -⟩ := Entity.readRelations_eq_ok (hm.relationNames_nodup e.name) hrelations
    intro name hname
    exact hkeys.subset (Dict.mem_keys_ofEntries.mp hname)

/-- Two entities that both read a stored document with an `_id` are one. -/
theorem Resolved.entity_unique {e e' : Entity} (he : e ∈ m.schema.all) (he' : e' ∈ m.schema.all)
    {stored id : Json} (hid : stored.get? "_id" = some id) {d d' : Document}
    (h : e.read m.topology stored = .ok d) (h' : e'.read m.topology stored = .ok d') : e = e' := by
  obtain ⟨handle, hhandle, hcollection⟩ := Entity.origin_of_read h hid
  obtain ⟨handle', hhandle', hcollection'⟩ := Entity.origin_of_read h' hid
  obtain rfl : handle = handle' := Option.some.inj (hhandle.symm.trans hhandle')
  exact hm.wellFormed.collectionName_injective he he' (hcollection.symm.trans hcollection')

/-- Reading by the origin is reading as the entity that can read the document. -/
theorem Resolved.readByOrigin_iff {stored id : Json} (hid : stored.get? "_id" = some id)
    {d : Document} : m.readByOrigin stored = .ok d ↔
      ∃ e ∈ m.schema.all, e.read m.topology stored = .ok d := by
  rw [readByOrigin, bind_eq_ok]
  constructor
  · rintro ⟨e, he, hread⟩
    obtain ⟨-, handle, -, -, howner⟩ := originOf_eq_ok_iff.mp he
    exact ⟨e, (hm.wellFormed.ofCollection_eq_ok_iff.mp howner).1, hread⟩
  · rintro ⟨e, he, hread⟩
    obtain ⟨handle, hhandle, hcollection⟩ := Entity.origin_of_read hread hid
    have howner : m.schema.ofCollection handle.collection = .ok e :=
      hm.wellFormed.ofCollection_eq_ok_iff.mpr ⟨he, hcollection.symm⟩
    exact ⟨e, originOf_eq_ok_iff.mpr ⟨id, handle, hid, hhandle, howner⟩, hread⟩

/-- A stored document is read as one of a given entity. -/
theorem Resolved.readAll_iff {entity : String} {stored : Json} {ds : List Document} :
    m.readAll entity [stored] = .ok ds ↔
      ∃ e ∈ m.schema.all, e.name = entity ∧ ∃ d, e.read m.topology stored = .ok d ∧ ds = [d] := by
  rw [readAll_one]
  constructor
  · rintro ⟨e, d, he, hread, rfl⟩
    obtain ⟨hmem, hname⟩ := hm.wellFormed.lookup_eq_ok he
    exact ⟨e, hmem, hname, d, hread, rfl⟩
  · rintro ⟨e, he, rfl, d, hread, rfl⟩
    exact ⟨e, d, hm.wellFormed.lookup_of_mem he, hread, rfl⟩

/-- A document that was read conforms to the given entity. One that has an `_id` can be read as one
entity at most, and choosing the entity by the `_id` reads it just when it can be read as some entity,
and as the same document. -/
theorem Resolved.read_conforms (stored : Json) :
    (∀ entity ds, m.readAll entity [stored] = .ok ds →
      ∃ e ∈ m.schema.all, e.name = entity ∧ ∃ d, ds = [d] ∧ d.Conforms e m.topology) ∧
    ∀ id, stored.get? "_id" = some id →
      (∀ entity entity' ds ds', m.readAll entity [stored] = .ok ds →
        m.readAll entity' [stored] = .ok ds' → entity = entity') ∧
      ∀ d, m.readByOrigin stored = .ok d ↔ ∃ entity, m.readAll entity [stored] = .ok [d] := by
  refine ⟨?_, fun id hid => ⟨?_, fun d => ?_⟩⟩
  · intro entity ds h
    obtain ⟨e, he, hname, d, hread, rfl⟩ := hm.readAll_iff.mp h
    exact ⟨e, he, hname, d, rfl, hm.conforms_of_read he hread⟩
  · intro entity entity' ds ds' h h'
    obtain ⟨e, he, rfl, d, hread, -⟩ := hm.readAll_iff.mp h
    obtain ⟨e', he', rfl, d', hread', -⟩ := hm.readAll_iff.mp h'
    rw [hm.entity_unique he he' hid hread hread']
  · rw [hm.readByOrigin_iff hid]
    constructor
    · rintro ⟨e, he, hread⟩
      exact ⟨e.name, hm.readAll_iff.mpr ⟨e, he, rfl, d, hread, rfl⟩⟩
    · rintro ⟨entity, h⟩
      obtain ⟨e, he, -, d', hread, heq⟩ := hm.readAll_iff.mp h
      obtain rfl := List.singleton_inj.mp heq
      exact ⟨e, he, hread⟩

end Mapper

/-- The account of a bank, with its `_id` and the handle of its owner. -/
theorem Mapper.read_conforms_account :
    let stored : Json := .object [("_id", .string "accounts/1"), ("_key", .string "1"),
      ("balance", Json.ofNat 5), ("owner", .string "people/1")]
    Bank.mapper.Resolved ∧ stored.get? "_id" = some (.string "accounts/1") ∧
      ∃ d, Bank.mapper.readByOrigin stored = .ok d ∧
        ∃ e ∈ Bank.mapper.schema.all, e.name = "Account" ∧ d.Conforms e Bank.mapper.topology := by
  intro stored
  have hid : stored.get? "_id" = some (.string "accounts/1") := rfl
  obtain ⟨hconforms, horigin⟩ := Resolved.read_conforms Bank.mapper_resolved stored
  obtain ⟨-, hby⟩ := horigin _ hid
  have hok : (Bank.mapper.readAll "Account" [stored]).isOk = true := by decide +kernel
  obtain ⟨ds, hds⟩ := exists_of_isOk hok
  obtain ⟨e, he, hname, d, rfl, hconform⟩ := hconforms "Account" ds hds
  exact ⟨Bank.mapper_resolved, hid, d, (hby d).mpr ⟨"Account", hds⟩, e, he, hname, hconform⟩

end GraphMapper
