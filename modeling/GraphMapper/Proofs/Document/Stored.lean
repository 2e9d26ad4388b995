import GraphMapper.Mutation.Documents
import GraphMapper.Proofs.Document.Reading

/-!
# Reading what was stored

The document that an insertion stores has the key and the values of its attributes (`find?_stored`),
and nothing under a name of a relation (`Mapper.Resolved.find?_relation`). It is read back as long as
each value can be read: that fails for date-times alone, whose texts are stored unseen
(`Mapper.Resolved.insert_read`).
-/

namespace GraphMapper

open Outcome

/-! ## What is stored -/

/-- The value that a new document has for an attribute. -/
def Document.initial (d : Document) (e : Entity) (a : Attribute) : Except Error Value :=
  a.initial e (Dict.find? d.attributes a.name)

/-- A value that is checked belongs to the type of its attribute, and is not null where one is
required. -/
theorem Attribute.check_eq_ok {a : Attribute} {e : Entity} {v : Value} (h : a.check e v = .ok ()) :
    a.type.accepts v = true := by
  unfold check at h
  split at h
  · cases h
  · split at h
    · next haccepts => exact haccepts
    · cases h

theorem Entity.initialMembers_eq_ok {e : Entity} {given : Dict String Value} {as : List Attribute}
    {members : List (String × Json)} (h : e.initialMembers given as = .ok members) :
    List.Forall₂ (fun a member => ∃ v, a.initial e (Dict.find? given a.name) = .ok v ∧
      a.type.accepts v = true ∧ member = (a.name, v.toJson)) as members := by
  induction as generalizing members with
  | nil =>
    obtain rfl := Except.ok.inj h
    exact .nil
  | cons a rest ih =>
    obtain ⟨v, hv, h⟩ := bind_eq_ok.mp h
    obtain ⟨_, hcheck, h⟩ := bind_eq_ok.mp h
    obtain ⟨others, hrest, h⟩ := bind_eq_ok.mp h
    obtain rfl := pure_eq_ok.mp h
    exact .cons ⟨v, hv, Attribute.check_eq_ok hcheck, rfl⟩ (ih hrest)

theorem Entity.map_fst_initialMembers {e : Entity} {given : Dict String Value}
    {as : List Attribute} {members : List (String × Json)}
    (h : e.initialMembers given as = .ok members) : members.map Prod.fst = as.map (·.name) := by
  have hmembers := initialMembers_eq_ok h
  clear h
  induction hmembers with
  | nil => rfl
  | cons hmember _ ih =>
    obtain ⟨v, -, -, rfl⟩ := hmember
    rw [List.map_cons, List.map_cons, ih]

/-- The members of a stored document. -/
def storedEntries (key : String) (members : List (String × Json)) : Dict String Json :=
  Dict.ofEntries (("_key", .string key) :: members)

section

variable {e : Entity} {given : Dict String Value} {key : String} {members : List (String × Json)}
  (hvalid : e.validate = .ok ()) (hmembers : e.initialMembers given e.attributes = .ok members)
include hvalid hmembers

theorem storedEntries_nodup :
    ((("_key", Json.string key) :: members).map Prod.fst).Nodup := by
  obtain ⟨hattributes, -, -⟩ := Entity.checked_of_validate hvalid
  rw [List.map_cons, Entity.map_fst_initialMembers hmembers, List.nodup_cons]
  refine ⟨?_, hattributes.nodup⟩
  intro hmem
  obtain ⟨a, ha, hname⟩ := List.mem_map.mp hmem
  have hfree := Entity.not_mem_reservedNames (hattributes.isMemberName a ha)
  exact hfree (hname ▸ List.mem_cons_of_mem _ List.mem_cons_self)

theorem find?_storedEntries (name : String) : Dict.find? (storedEntries key members) name =
    Dict.find? (("_key", Json.string key) :: members) name := by
  rw [storedEntries, Dict.find?_ofEntries (storedEntries_nodup hvalid hmembers)]

/-- An attribute is stored as the value that the document has for it. -/
theorem find?_attribute (key : String) {a : Attribute} (ha : a ∈ e.attributes) :
    ∃ v, a.initial e (Dict.find? given a.name) = .ok v ∧ a.type.accepts v = true ∧
      Dict.find? (storedEntries key members) a.name = some v.toJson := by
  obtain ⟨member, hmember, v, hv, haccepts, rfl⟩ :=
    exists_of_forall₂ (Entity.initialMembers_eq_ok hmembers) ha
  refine ⟨v, hv, haccepts, ?_⟩
  rw [find?_storedEntries hvalid hmembers,
    Dict.find?_eq_some_iff (storedEntries_nodup hvalid hmembers)]
  exact List.mem_cons_of_mem _ hmember

/-- Nothing else is stored, save the key. -/
theorem find?_other {name : String} (hname : name ∉ e.attributes.map (·.name))
    (hkey : name ≠ "_key") : Dict.find? (storedEntries key members) name = none := by
  rw [find?_storedEntries hvalid hmembers, Dict.find?_eq_none_iff]
  change name ∉ (("_key", Json.string key) :: members).map Prod.fst
  rw [List.map_cons, Entity.map_fst_initialMembers hmembers, List.mem_cons, not_or]
  exact ⟨hkey, hname⟩

end

theorem Entity.readRelations_eq_nil {e : Entity} {t : Topology} {stored : Dict String Json}
    {names : List String} (h : ∀ name ∈ names, Dict.find? stored name = none) :
    e.readRelations t stored names = .ok [] := by
  induction names with
  | nil => rfl
  | cons name rest ih =>
    rw [List.forall_mem_cons] at h
    rw [readRelations, h.1]
    exact ih h.2

/-! ## Reading a stored document -/

/-- A document without relations is stored by one statement. -/
theorem Mapper.insert_eq_ok {m : Mapper} {e : Entity} {d : Document} {freshKey : String}
    {statements : List Statement} (he : m.schema.lookup d.entity = .ok e)
    (hrelations : d.relations = []) (h : m.insert freshKey d = .ok statements) :
    ∃ members, e.initialMembers d.attributes e.attributes = .ok members ∧
      statements = [Statement.closed (.insertDocument (.named "doc") e.collectionName)
        [(.named "doc", .object (storedEntries (d.key.getD freshKey) members))]] := by
  obtain ⟨e', he', h⟩ := bind_eq_ok.mp h
  obtain rfl : e = e' := Except.ok.inj (he.symm.trans he')
  obtain ⟨_, -, h⟩ := bind_eq_ok.mp h
  obtain ⟨members, hmembers, h⟩ := bind_eq_ok.mp h
  obtain ⟨edges, hedges, h⟩ := bind_eq_ok.mp h
  rw [hrelations] at hedges
  obtain rfl := Except.ok.inj hedges
  exact ⟨members, hmembers, (pure_eq_ok.mp h).symm⟩

/-- A stored document is read when its attributes are. -/
theorem Mapper.Resolved.read_stored {m : Mapper} (hm : m.Resolved) {e : Entity}
    (he : e ∈ m.schema.all) {given : Dict String Value} {key : String}
    {members : List (String × Json)}
    (hmembers : e.initialMembers given e.attributes = .ok members) {d : Document} :
    e.read m.topology (.object (storedEntries key members)) = .ok d ↔
      ∃ values, e.readAttributes (storedEntries key members) e.attributes = .ok values ∧
        d = { entity := e.name, key := some key, attributes := Dict.ofEntries values } := by
  have hvalid := hm.wellFormed.valid e he
  obtain ⟨hattributes, -, -⟩ := Entity.checked_of_validate hvalid
  have hkey : Dict.find? (storedEntries key members) "_key" = some (.string key) :=
    find?_storedEntries hvalid hmembers "_key"
  have hid : Dict.find? (storedEntries key members) "_id" = none := by
    refine find?_other hvalid hmembers ?_ (by decide)
    intro hmem
    obtain ⟨a, ha, hname⟩ := List.mem_map.mp hmem
    exact Entity.not_mem_reservedNames (hattributes.isMemberName a ha)
      (hname ▸ by decide : a.name ∈ reservedNames)
  have hrelations : e.readRelations m.topology (storedEntries key members)
      (m.topology.relationNames e.name) = .ok [] := by
    apply Entity.readRelations_eq_nil
    intro name hname
    obtain ⟨hfree, hmember⟩ := hm.relation_free he hname
    refine find?_other hvalid hmembers hfree ?_
    rintro rfl
    exact absurd hmember (by decide)
  have hcheck : e.checkId (storedEntries key members) = .ok () := by
    rw [Entity.checkId, hid]
  rw [Entity.read_eq_ok_iff]
  constructor
  · rintro ⟨_, key', values, relations, hobject, hkey', -, hvalues, hread, rfl⟩
    obtain rfl := Json.object.inj hobject
    obtain rfl := Json.string.inj (Option.some.inj (hkey'.symm.trans hkey))
    obtain rfl := Except.ok.inj (hread.symm.trans hrelations)
    exact ⟨values, hvalues, rfl⟩
  · rintro ⟨values, hvalues, rfl⟩
    exact ⟨_, key, values, [], rfl, hkey, hcheck, hvalues, hrelations, rfl⟩

theorem Mapper.Resolved.readAll_stored {m : Mapper} (hm : m.Resolved) {entity : String}
    {e : Entity} (he : m.schema.lookup entity = .ok e) {given : Dict String Value} {key : String}
    {members : List (String × Json)}
    (hmembers : e.initialMembers given e.attributes = .ok members) {ds : List Document} :
    m.readAll entity [.object (storedEntries key members)] = .ok ds ↔
      ∃ values, e.readAttributes (storedEntries key members) e.attributes = .ok values ∧
        ds = [{ entity := e.name, key := some key, attributes := Dict.ofEntries values }] := by
  have hmem := (hm.wellFormed.lookup_eq_ok he).1
  rw [readAll_one]
  constructor
  · rintro ⟨e', d, he', hread, rfl⟩
    obtain rfl : e = e' := Except.ok.inj (he.symm.trans he')
    obtain ⟨values, hvalues, rfl⟩ := (hm.read_stored hmem hmembers).mp hread
    exact ⟨values, hvalues, rfl⟩
  · rintro ⟨values, hvalues, rfl⟩
    exact ⟨e, _, he, (hm.read_stored hmem hmembers).mpr ⟨values, hvalues, rfl⟩, rfl⟩

/-- A stored document is read back if each of its values can be, unless a required attribute was
written as null. -/
theorem Mapper.Resolved.exists_readAll_iff {m : Mapper} (hm : m.Resolved) {entity : String}
    {e : Entity} (he : m.schema.lookup entity = .ok e) {given : Dict String Value} {key : String}
    {members : List (String × Json)} (hmembers : e.initialMembers given e.attributes = .ok members)
    (hnull : ∀ a ∈ e.attributes, a.required = true → ∀ v,
      a.initial e (Dict.find? given a.name) = .ok v → v.toJson.isNull = false) :
    (∃ ds, m.readAll entity [.object (storedEntries key members)] = .ok ds) ↔
      ∀ a ∈ e.attributes, ∀ v, a.initial e (Dict.find? given a.name) = .ok v →
        v.Readable a.type := by
  have hvalid := hm.wellFormed.valid e (hm.wellFormed.lookup_eq_ok he).1
  have hvalues : (∃ ds, m.readAll entity [.object (storedEntries key members)] = .ok ds) ↔
      ∃ values, e.readAttributes (storedEntries key members) e.attributes = .ok values := by
    simp only [hm.readAll_stored he hmembers]
    exact ⟨fun ⟨_, values, h, _⟩ => ⟨values, h⟩, fun ⟨values, h⟩ => ⟨_, values, h, rfl⟩⟩
  rw [hvalues, Entity.exists_readAttributes_iff]
  refine forall₂_congr fun a ha => ?_
  obtain ⟨written, hinitial, haccepts, hfound⟩ := find?_attribute hvalid hmembers key ha
  have hreadable := Value.isSome_read?_toJson_iff haccepts
  rw [Option.isSome_iff_exists] at hreadable
  simp only [Entity.readAttribute_eq_ok_iff hfound fun h => hnull a ha h written hinitial]
  rw [hreadable]
  constructor
  · intro h v hv
    obtain rfl := Except.ok.inj (hinitial.symm.trans hv)
    exact h
  · exact fun h => h written hinitial

/-- A document that was inserted without relations, and whose required attributes are not written as
null, is read back exactly if the values of its date-times can be read: it has the key that was
inserted, no relations, and the readings of what was written for its attributes. -/
theorem Mapper.Resolved.insert_read {m : Mapper} (hm : m.Resolved) {e : Entity} {d : Document}
    (he : m.schema.lookup d.entity = .ok e) (hrelations : d.relations = []) {freshKey : String}
    {statements : List Statement} (hinsert : m.insert freshKey d = .ok statements)
    (hnull : ∀ a ∈ e.attributes, a.required = true → ∀ v, d.initial e a = .ok v →
      v.toJson.isNull = false) :
    ∃ first stored, statements = [first] ∧ Dict.find? first.bindVars "doc" = some stored ∧
      stored.get? "_key" = some (.string (d.key.getD freshKey)) ∧
      ((∃ ds, m.readAll d.entity [stored] = .ok ds) ↔
        ∀ a ∈ e.attributes, ∀ v, d.initial e a = .ok v → v.Readable a.type) ∧
      ∀ ds, m.readAll d.entity [stored] = .ok ds → ∃ d', ds = [d'] ∧ d'.entity = d.entity ∧
        d'.key = some (d.key.getD freshKey) ∧ d'.relations = [] ∧
        ∀ a ∈ e.attributes, ∃ written v, d.initial e a = .ok written ∧
          stored.get? a.name = some written.toJson ∧
          Value.read? a.type written.toJson = some v ∧
          Dict.find? d'.attributes a.name = some v := by
  obtain ⟨members, hmembers, rfl⟩ := insert_eq_ok he hrelations hinsert
  obtain ⟨hmem, hname⟩ := hm.wellFormed.lookup_eq_ok he
  have hvalid := hm.wellFormed.valid e hmem
  obtain ⟨hattributes, -, -⟩ := Entity.checked_of_validate hvalid
  refine ⟨_, .object (storedEntries (d.key.getD freshKey) members), rfl, rfl,
    find?_storedEntries hvalid hmembers "_key", hm.exists_readAll_iff he hmembers hnull, ?_⟩
  intro ds hds
  obtain ⟨values, hvalues, rfl⟩ := (hm.readAll_stored he hmembers).mp hds
  refine ⟨_, rfl, hname, rfl, rfl, ?_⟩
  intro a ha
  obtain ⟨written, hinitial, -, hfound⟩ := find?_attribute hvalid hmembers _ ha
  obtain ⟨v, hv, hvalue⟩ := Entity.readAttributes_eq_ok hattributes.nodup hvalues a ha
  have hread := (Entity.readAttribute_eq_ok_iff hfound
    fun h => hnull a ha h written hinitial).mp hv
  exact ⟨written, v, hinitial, hfound, hread, hvalue⟩

/-! ## A diary -/

namespace Diary

def event : Entity where
  name := "Event"
  attributes := [{ name := "at", type := .dateTime }]

/-- The mapper of the diary. -/
def mapper : Mapper := (Mapper.ofEntities [event] {}).toOption.getD ⟨{}, {}, {}⟩

/-- A new event at the time that a text says. -/
def entry (time : String) : Document where
  entity := "Event"
  key := some "1"
  attributes := [("at", .string time)]

theorem mapper_resolved : mapper.Resolved := by
  have hok : (Mapper.ofEntities [event] {}).isOk = true := by decide +kernel
  exact Mapper.resolved_of_isOk hok

theorem lookup_event : mapper.schema.lookup "Event" = .ok event := by
  have hok : (Mapper.ofEntities [event] {}).isOk = true := by decide +kernel
  obtain ⟨m, hm⟩ := exists_of_isOk hok
  obtain ⟨s, hs, hresolve⟩ := bind_eq_ok.mp hm
  obtain ⟨t, -, heq⟩ := bind_eq_ok.mp hresolve
  obtain rfl := pure_eq_ok.mp heq
  rw [mapper, hm]
  obtain ⟨s', hregister, hs⟩ := bind_eq_ok.mp hs
  obtain rfl := pure_eq_ok.mp hs
  exact Schema.lookup_register hregister

theorem initialMembers_entry (time : String) :
    event.initialMembers (entry time).attributes event.attributes =
      .ok [("at", .string time)] := rfl

/-- Any text is accepted as the time of an event. -/
theorem insert_entry (time : String) : mapper.insert "fresh" (entry time) =
    .ok [Statement.closed (.insertDocument (.named "doc") event.collectionName)
      [(.named "doc", .object (storedEntries "1" [("at", .string time)]))]] := by
  rw [Mapper.insert]
  change (mapper.schema.lookup "Event" >>= _) = _
  rw [lookup_event]
  rfl

/-- The time of an event is never written as null. -/
theorem entry_not_null (time : String) : ∀ a ∈ event.attributes, a.required = true → ∀ v,
    (entry time).initial event a = .ok v → v.toJson.isNull = false := by
  intro a ha _ v hv
  obtain rfl := List.mem_singleton.mp ha
  obtain rfl := Except.ok.inj hv
  rfl

end Diary

theorem Mapper.insert_read_diary : ∃ first stored,
    Diary.mapper.insert "fresh" (Diary.entry "2024-05-01T12:00:00Z") = .ok [first] ∧
      Dict.find? first.bindVars "doc" = some stored ∧
      ∃ d, Diary.mapper.readAll "Event" [stored] = .ok [d] ∧ d.key = some "1" := by
  obtain ⟨first, stored, hfirst, hstored, -, hread, hvalues⟩ :=
    Mapper.Resolved.insert_read Diary.mapper_resolved Diary.lookup_event rfl
      (Diary.insert_entry "2024-05-01T12:00:00Z") (Diary.entry_not_null "2024-05-01T12:00:00Z")
  have htime : (Timestamp.parse? "2024-05-01T12:00:00Z").isSome = true := by decide +kernel
  obtain ⟨ds, hds⟩ := hread.mpr fun a ha v hv => by
    obtain rfl := List.mem_singleton.mp ha
    obtain rfl := Except.ok.inj hv
    exact htime
  obtain ⟨d, rfl, -, hkey, -⟩ := hvalues ds hds
  exact ⟨first, stored, hfirst ▸ Diary.insert_entry _, hstored, d, hds, hkey⟩

/-- An event at no time at all is stored, and cannot be read. -/
theorem Mapper.insert_unreadable :
    Diary.mapper.Resolved ∧ (Diary.entry "soon").relations = [] ∧ ∃ first stored,
      Diary.mapper.insert "fresh" (Diary.entry "soon") = .ok [first] ∧
      Dict.find? first.bindVars "doc" = some stored ∧
      ¬ ∃ ds, Diary.mapper.readAll "Event" [stored] = .ok ds := by
  refine ⟨Diary.mapper_resolved, rfl, _, _, Diary.insert_entry "soon", rfl, ?_⟩
  rw [Diary.mapper_resolved.exists_readAll_iff Diary.lookup_event
    (Diary.initialMembers_entry "soon") (Diary.entry_not_null "soon")]
  intro hreadable
  have htime : (Timestamp.parse? "soon").isSome = true :=
    hreadable _ List.mem_cons_self _ rfl
  exact absurd htime (by decide +kernel)

end GraphMapper
