import GraphMapper.Document.Reading
import GraphMapper.Proofs.Relation.Names
import GraphMapper.Proofs.Value

/-!
# What reading takes from a stored document

A stored document that is read as an entity is an object with a key, a value that fits for each
declared attribute, and handles under the names of relations (`Entity.read_eq_ok_iff`). No member is
read in two roles, because no name has two.

Each name is read on its own. `Entity.readRelation` is what stands under the name of one relation, and
`Entity.find?_readRelations` says that a read document has exactly that under it.
-/

namespace GraphMapper

open Outcome

/-! ## Reading attributes -/

theorem Entity.readAttributes_eq_mapM (e : Entity) (stored : Dict String Json)
    (as : List Attribute) : e.readAttributes stored as =
      as.mapM fun a => do return (a.name, ← e.readAttribute stored a) := by
  induction as with
  | nil => rfl
  | cons a rest ih =>
    rw [readAttributes, List.mapM_cons, ih, bind_assoc]
    simp

/-- An attribute that is stored, and not as null where null is refused, is read as its type. -/
theorem Entity.readAttribute_eq_ok_iff {e : Entity} {stored : Dict String Json} {a : Attribute}
    {raw : Json} (hraw : Dict.find? stored a.name = some raw)
    (hnull : a.required = true → raw.isNull = false) {v : Value} :
    e.readAttribute stored a = .ok v ↔ Value.read? a.type raw = some v := by
  unfold readAttribute
  rw [hraw]
  cases hread : Value.read? a.type raw with
  | none => simp [hread, malformed, bind, Except.bind]
  | some v' =>
    have hallowed : ¬ (v'.isNull = true ∧ a.required = true) := by
      rintro ⟨hisNull, hrequired⟩
      rw [Value.isNull_of_read?_eq_some hread, hnull hrequired] at hisNull
      cases hisNull
    simp [hread, bind, Except.bind, pure, Except.pure, hallowed]

/-- All attributes can be read when each of them can. -/
theorem Entity.exists_readAttributes_iff {e : Entity} {stored : Dict String Json}
    {as : List Attribute} : (∃ values, e.readAttributes stored as = .ok values) ↔
      ∀ a ∈ as, ∃ v, e.readAttribute stored a = .ok v := by
  rw [readAttributes_eq_mapM, exists_mapM_iff]
  refine forall₂_congr fun a _ => ?_
  constructor
  · rintro ⟨entry, h⟩
    obtain ⟨v, hv, -⟩ := bind_eq_ok.mp h
    exact ⟨v, hv⟩
  · rintro ⟨v, hv⟩
    exact ⟨(a.name, v), bind_eq_ok.mpr ⟨v, hv, rfl⟩⟩

/-- The values that are read, each under its own name. -/
theorem Entity.readAttributes_eq_ok {e : Entity} {stored : Dict String Json} {as : List Attribute}
    {values : List (String × Value)} (hnodup : (as.map (·.name)).Nodup)
    (h : e.readAttributes stored as = .ok values) :
    ∀ a ∈ as, ∃ v, e.readAttribute stored a = .ok v ∧
      Dict.find? (Dict.ofEntries values) a.name = some v := by
  rw [readAttributes_eq_mapM] at h
  have hread : ∀ a entry, (do return (a.name, ← e.readAttribute stored a)) = Except.ok entry →
      e.readAttribute stored a = .ok entry.2 ∧ entry.1 = a.name := by
    intro a entry hentry
    obtain ⟨v, hv, hentry⟩ := bind_eq_ok.mp hentry
    obtain rfl := pure_eq_ok.mp hentry
    exact ⟨hv, rfl⟩
  have hnames : values.map Prod.fst = as.map (·.name) :=
    map_of_mapM (fun a _ entry hentry => (hread a entry hentry).2) h
  intro a ha
  obtain ⟨entry, hentry, hrun⟩ := exists_of_mapM h ha
  obtain ⟨hv, hname⟩ := hread a entry hrun
  refine ⟨entry.2, hv, ?_⟩
  have hkeys : (Dict.keys values).Nodup := (congrArg List.Nodup hnames).mpr hnodup
  rw [Dict.find?_ofEntries hkeys, Dict.find?_eq_some_iff hkeys, ← hname]
  exact hentry

/-- A value that is read belongs to the type of its attribute, and is not null where one is
required. -/
theorem Entity.readAttribute_eq_ok {e : Entity} {stored : Dict String Json} {a : Attribute}
    {v : Value} (h : e.readAttribute stored a = .ok v) :
    a.type.accepts v = true ∧ ¬ (v.isNull = true ∧ a.required = true) := by
  have hguard : ∀ w : Value, (if w.isNull = true ∧ a.required = true then
      e.malformed (.nullAttribute a.name) else Except.ok w) = .ok v →
      v = w ∧ ¬ (v.isNull = true ∧ a.required = true) := by
    intro w hw
    split at hw
    · cases hw
    · next hallowed =>
      obtain rfl := Except.ok.inj hw
      exact ⟨rfl, hallowed⟩
  unfold readAttribute at h
  cases hraw : Dict.find? stored a.name with
  | some raw =>
    cases hread : Value.read? a.type raw with
    | some w =>
      simp only [hraw, hread] at h
      obtain ⟨rfl, hallowed⟩ := hguard w h
      exact ⟨Value.accepts_of_read?_eq_some hread, hallowed⟩
    | none =>
      simp only [hraw, hread] at h
      cases h
  | none =>
    simp only [hraw] at h
    split at h
    · obtain ⟨rfl, hallowed⟩ := hguard .null h
      exact ⟨a.type.accepts_null, hallowed⟩
    · cases h

/-- Every value of a document that was read belongs to an attribute. -/
theorem Entity.mem_readAttributes {e : Entity} {stored : Dict String Json} {as : List Attribute}
    {values : List (String × Value)} (h : e.readAttributes stored as = .ok values)
    {entry : String × Value} (hentry : entry ∈ Dict.ofEntries values) :
    ∃ a ∈ as, a.name = entry.1 ∧ e.readAttribute stored a = .ok entry.2 := by
  rw [readAttributes_eq_mapM] at h
  have hmem : entry ∈ values := Dict.mem_of_mem_ofEntries hentry
  obtain ⟨a, ha, hrun⟩ := (mem_mapM_iff h).mp hmem
  obtain ⟨v, hv, hrun⟩ := bind_eq_ok.mp hrun
  obtain rfl := pure_eq_ok.mp hrun
  exact ⟨a, ha, rfl, hv⟩

/-- Attributes are read from their own members alone. -/
theorem Entity.readAttributes_congr {e : Entity} {stored stored' : Dict String Json}
    {as : List Attribute} (h : ∀ a ∈ as, Dict.find? stored a.name = Dict.find? stored' a.name) :
    e.readAttributes stored as = e.readAttributes stored' as := by
  induction as with
  | nil => rfl
  | cons a rest ih =>
    rw [List.forall_mem_cons] at h
    rw [readAttributes, readAttributes, ih h.2, readAttribute, readAttribute, h.1]

/-! ## Reading relations -/

namespace Entity

variable {e : Entity} {t : Topology} {stored : Dict String Json} {name : String}

/-- What a stored document has under the name of a relation; null is nothing. -/
def readRelation (e : Entity) (t : Topology) (stored : Dict String Json) (name : String) :
    Except Error (Option (Neighbours Document)) :=
  match Dict.find? stored name with
  | none => .ok none
  | some raw => do
    let hop ← t.hop e.name name
    if raw.isNull then return none
    return some (← e.readNeighbours name hop.cardinality raw)

theorem readRelation_congr {stored' : Dict String Json}
    (h : Dict.find? stored name = Dict.find? stored' name) :
    e.readRelation t stored name = e.readRelation t stored' name := by
  rw [readRelation, readRelation, h]

theorem readRelation_found {raw : Json} (hraw : Dict.find? stored name = some raw) {hop : Hop}
    (hhop : t.hop e.name name = .ok hop) : e.readRelation t stored name =
      if raw.isNull then .ok none else (e.readNeighbours name hop.cardinality raw).map some := by
  simp only [readRelation, hraw, hhop]
  change (if raw.isNull then Except.ok none else _) = _
  split
  · rfl
  · cases e.readNeighbours name hop.cardinality raw <;> rfl

theorem readRelations_cons {rest : List String} :
    e.readRelations t stored (name :: rest) = do
      let found ← e.readRelation t stored name
      let others ← e.readRelations t stored rest
      return (found.map fun neighbours => (name, neighbours)).toList ++ others := by
  have hrest : e.readRelations t stored rest =
      (do return [] ++ (← e.readRelations t stored rest)) := by
    cases e.readRelations t stored rest <;> rfl
  rw [readRelations, readRelation]
  cases Dict.find? stored name with
  | none => exact hrest
  | some raw =>
    cases t.hop e.name name with
    | error err => rfl
    | ok hop =>
      dsimp only [bind, Except.bind]
      split
      · exact hrest
      · cases e.readNeighbours name hop.cardinality raw <;> rfl

/-- Relations can be read when each of them can. -/
theorem exists_readRelations_iff {names : List String} :
    (∃ entries, e.readRelations t stored names = .ok entries) ↔
      ∀ name ∈ names, ∃ found, e.readRelation t stored name = .ok found := by
  induction names with
  | nil => exact ⟨fun _ name hname => absurd hname List.not_mem_nil, fun _ => ⟨[], rfl⟩⟩
  | cons name rest ih =>
    rw [List.forall_mem_cons, ← ih, readRelations_cons]
    constructor
    · rintro ⟨entries, h⟩
      obtain ⟨found, hfound, h⟩ := bind_eq_ok.mp h
      obtain ⟨others, hothers, -⟩ := bind_eq_ok.mp h
      exact ⟨⟨found, hfound⟩, others, hothers⟩
    · rintro ⟨⟨found, hfound⟩, others, hothers⟩
      exact ⟨_, bind_eq_ok.mpr ⟨found, hfound, bind_eq_ok.mpr ⟨others, hothers, rfl⟩⟩⟩

/-- Entries are read in the order of the names, each name on its own. -/
theorem readRelations_eq_ok {names : List String} (hnodup : names.Nodup)
    {entries : List (String × Neighbours Document)}
    (h : e.readRelations t stored names = .ok entries) :
    (Dict.keys entries).Sublist names ∧
      ∀ name ∈ names, e.readRelation t stored name = .ok (Dict.find? entries name) := by
  induction names generalizing entries with
  | nil =>
    obtain rfl := Except.ok.inj h
    exact ⟨List.Sublist.refl [], fun name hname => absurd hname List.not_mem_nil⟩
  | cons name rest ih =>
    rw [List.nodup_cons] at hnodup
    rw [readRelations_cons] at h
    obtain ⟨found, hfound, h⟩ := bind_eq_ok.mp h
    obtain ⟨others, hothers, h⟩ := bind_eq_ok.mp h
    obtain rfl := pure_eq_ok.mp h
    obtain ⟨hkeys, hvalues⟩ := ih hnodup.2 hothers
    cases found with
    | none =>
      have hnone : Dict.find? others name = none :=
        Dict.find?_eq_none_iff.mpr fun hmem => hnodup.1 (hkeys.subset hmem)
      refine ⟨hkeys.cons name, List.forall_mem_cons.mpr ⟨?_, hvalues⟩⟩
      exact hfound.trans (congrArg Except.ok hnone.symm)
    | some neighbours =>
      refine ⟨hkeys.cons_cons name, List.forall_mem_cons.mpr ⟨?_, fun other hother => ?_⟩⟩
      · simpa [Dict.find?] using hfound
      · have hne : name ≠ other := fun heq => hnodup.1 (heq ▸ hother)
        simpa [Dict.find?, hne] using hvalues other hother

/-- A document that was read has under each name what was read there, and nothing else. -/
theorem find?_readRelations {names : List String} (hnodup : names.Nodup)
    {entries : List (String × Neighbours Document)}
    (h : e.readRelations t stored names = .ok entries) :
    (∀ name ∈ names,
      e.readRelation t stored name = .ok (Dict.find? (Dict.ofEntries entries) name)) ∧
      ∀ name ∉ names, Dict.find? (Dict.ofEntries entries) name = none := by
  obtain ⟨hkeys, hvalues⟩ := readRelations_eq_ok hnodup h
  have hfind := Dict.find?_ofEntries (hkeys.nodup hnodup)
  constructor
  · intro name hname
    rw [hfind]
    exact hvalues name hname
  · intro name hname
    rw [hfind, Dict.find?_eq_none_iff]
    exact fun hmem => hname (hkeys.subset hmem)

theorem readNeighbour_eq_ok {raw : Json} {neighbour : Neighbour Document}
    (h : e.readNeighbour name raw = .ok neighbour) :
    ∃ handle, Handle.ofJson? raw = some handle ∧ neighbour = .unread handle := by
  unfold readNeighbour at h
  split at h
  · next handle hhandle => exact ⟨handle, hhandle, (Except.ok.inj h).symm⟩
  · cases h

theorem mapM_readNeighbour_eq_ok {items : List Json} {read : List (Neighbour Document)}
    (h : items.mapM (e.readNeighbour name) = .ok read) :
    ∃ handles : List Handle, read = handles.map .unread := by
  induction mapM_eq_ok_iff.mp h with
  | nil => exact ⟨[], rfl⟩
  | cons hfirst hrest ih =>
    obtain ⟨handle, -, rfl⟩ := readNeighbour_eq_ok hfirst
    obtain ⟨handles, rfl⟩ := ih (mapM_eq_ok_iff.mpr hrest)
    exact ⟨handle :: handles, rfl⟩

/-- What is read under the name of a relation are handles. -/
theorem readNeighbours_eq_ok {cardinality : Cardinality} {raw : Json}
    {neighbours : Neighbours Document}
    (h : e.readNeighbours name cardinality raw = .ok neighbours) :
    ∃ handles : List Handle, neighbours.toList = handles.map .unread := by
  have hone : ∀ neighbour, e.readNeighbour name raw = .ok neighbour →
      ∃ handles : List Handle, [neighbour] = handles.map .unread := by
    intro neighbour hrun
    obtain ⟨handle, -, rfl⟩ := readNeighbour_eq_ok hrun
    exact ⟨[handle], rfl⟩
  unfold readNeighbours at h
  split at h
  · obtain ⟨read, hread, h⟩ := bind_eq_ok.mp h
    obtain rfl := pure_eq_ok.mp h
    exact mapM_readNeighbour_eq_ok hread
  · obtain ⟨neighbour, hrun, h⟩ := bind_eq_ok.mp h
    obtain rfl := pure_eq_ok.mp h
    exact hone neighbour hrun
  · obtain ⟨neighbour, hrun, h⟩ := bind_eq_ok.mp h
    obtain rfl := pure_eq_ok.mp h
    exact hone neighbour hrun

theorem readRelation_eq_some {neighbours : Neighbours Document}
    (h : e.readRelation t stored name = .ok (some neighbours)) :
    ∃ handles : List Handle, neighbours.toList = handles.map .unread := by
  unfold readRelation at h
  split at h
  · cases h
  · obtain ⟨hop, -, h⟩ := bind_eq_ok.mp h
    split at h
    · cases h
    · obtain ⟨read, hread, h⟩ := bind_eq_ok.mp h
      obtain rfl := Option.some.inj (pure_eq_ok.mp h)
      exact readNeighbours_eq_ok hread

/-! ## Reading a document -/

/-- What reading asks of a stored document, and the document that it gives. -/
theorem read_eq_ok_iff {stored : Json} {d : Document} : e.read t stored = .ok d ↔
    ∃ members key attributes relations, stored = .object members ∧
      Dict.find? members "_key" = some (.string key) ∧ e.checkId members = .ok () ∧
      e.readAttributes members e.attributes = .ok attributes ∧
      e.readRelations t members (t.relationNames e.name) = .ok relations ∧
      d = { entity := e.name
            key := some key
            attributes := Dict.ofEntries attributes
            relations := Dict.ofEntries relations } := by
  constructor
  · intro h
    unfold read at h
    split at h
    · next members =>
      split at h
      · cases h
      · next key hkey =>
        obtain ⟨raw, hraw, hstring⟩ := Option.bind_eq_some_iff.mp hkey
        obtain rfl : raw = .string key := by
          cases raw <;> simp_all [Json.toString?]
        obtain ⟨_, hid, h⟩ := bind_eq_ok.mp h
        obtain ⟨attributes, hattributes, h⟩ := bind_eq_ok.mp h
        obtain ⟨relations, hrelations, h⟩ := bind_eq_ok.mp h
        exact ⟨members, key, attributes, relations, rfl, hraw, hid, hattributes, hrelations,
          (pure_eq_ok.mp h).symm⟩
    · cases h
  · rintro ⟨members, key, attributes, relations, rfl, hkey, hid, hattributes, hrelations, rfl⟩
    simp only [read, hkey, Option.bind_some, Json.toString?, hid, hattributes, hrelations]
    rfl

end Entity

/-- A document that was read has under the name of each relation what was read there, and no other
relations. -/
theorem Mapper.Resolved.relations_of_read {m : Mapper} (hm : m.Resolved) {e : Entity}
    {members : Dict String Json} {d : Document}
    (h : e.read m.topology (.object members) = .ok d) :
    (∀ name ∈ m.topology.relationNames e.name,
      e.readRelation m.topology members name = .ok (Dict.find? d.relations name)) ∧
      ∀ name ∉ m.topology.relationNames e.name, Dict.find? d.relations name = none := by
  obtain ⟨members', key, attributes, relations, heq, -, -, -, hrelations, rfl⟩ :=
    Entity.read_eq_ok_iff.mp h
  obtain rfl := Json.object.inj heq
  exact Entity.find?_readRelations (hm.relationNames_nodup e.name) hrelations

/-- The relations of a stored document may be exchanged for others that can be read: the document that
is read keeps its key and its attributes. -/
theorem Mapper.Resolved.read_related {m : Mapper} (hm : m.Resolved) {e : Entity}
    (he : e ∈ m.schema.all) {members members' : Dict String Json} {d : Document}
    (h : e.read m.topology (.object members) = .ok d)
    (hother : ∀ name ∉ m.topology.relationNames e.name,
      Dict.find? members' name = Dict.find? members name)
    (hrelations : ∀ name ∈ m.topology.relationNames e.name,
      ∃ found, e.readRelation m.topology members' name = .ok found) :
    ∃ d', e.read m.topology (.object members') = .ok d' ∧ d'.entity = d.entity ∧
      d'.key = d.key ∧ d'.attributes = d.attributes := by
  obtain ⟨members₀, key, attributes, -, heq, hkey, hid, hattributes, -, rfl⟩ :=
    Entity.read_eq_ok_iff.mp h
  obtain rfl := Json.object.inj heq
  have hreserved : ∀ name ∈ reservedNames, Dict.find? members' name = Dict.find? members name := by
    intro name hname
    refine hother name fun hrelation => ?_
    exact Entity.not_mem_reservedNames (hm.relation_free he hrelation).2 hname
  have hattribute : ∀ a ∈ e.attributes, Dict.find? members' a.name = Dict.find? members a.name := by
    intro a ha
    refine hother a.name fun hrelation => ?_
    exact (hm.relation_free he hrelation).1 (List.mem_map_of_mem ha)
  obtain ⟨relations, hread⟩ := Entity.exists_readRelations_iff.mpr hrelations
  refine ⟨_, Entity.read_eq_ok_iff.mpr ⟨members', key, attributes, relations, rfl, ?_, ?_, ?_, hread,
    rfl⟩, rfl, rfl, rfl⟩
  · rw [hreserved "_key" (by decide)]
    exact hkey
  · rw [Entity.checkId, hreserved "_id" (by decide)]
    exact hid
  · rw [Entity.readAttributes_congr hattribute]
    exact hattributes

/-! ## Reading lists -/

/-- Reading a list of one stored document. -/
theorem Mapper.readAll_one {m : Mapper} {entity : String} {stored : Json} {ds : List Document} :
    m.readAll entity [stored] = .ok ds ↔
      ∃ e d, m.schema.lookup entity = .ok e ∧ e.read m.topology stored = .ok d ∧ ds = [d] := by
  have hone : ∀ e : Entity, [stored].mapM (e.read m.topology) = .ok ds ↔
      ∃ d, e.read m.topology stored = .ok d ∧ ds = [d] := by
    intro e
    rw [mapM_eq_ok_iff, List.forall₂_cons_left_iff]
    simp
  rw [readAll, bind_eq_ok]
  simp only [hone, exists_and_left]

theorem Mapper.readAll_singleton {m : Mapper} {entity : String} {stored : Json} {d : Document} :
    m.readAll entity [stored] = .ok [d] ↔
      ∃ e, m.schema.lookup entity = .ok e ∧ e.read m.topology stored = .ok d := by
  simp [readAll_one]

/-- The entity of a stored document is the one whose collection its `_id` names. -/
theorem Mapper.originOf_eq_ok_iff {m : Mapper} {stored : Json} {e : Entity} :
    m.originOf stored = .ok e ↔
      ∃ id handle, stored.get? "_id" = some id ∧ Handle.ofJson? id = some handle ∧
        m.schema.ofCollection handle.collection = .ok e := by
  unfold originOf
  cases hid : stored.get? "_id" with
  | none => simp [throw, throwThe, MonadExceptOf.throw]
  | some id =>
    cases htext : id.toString? with
    | none => simp [Handle.ofJson?, htext, throw, throwThe, MonadExceptOf.throw]
    | some s =>
      cases hhandle : Handle.parse? s with
      | none => simp [Handle.ofJson?, htext, hhandle, throw, throwThe, MonadExceptOf.throw]
      | some handle => simp [Handle.ofJson?, htext, hhandle]

/-- The documents that a mapper has read. -/
def Mapper.HasRead (m : Mapper) (stored : List Json) (ds : List Document) : Prop :=
  (∃ entity, m.readAll entity stored = .ok ds) ∨ m.readAllByOrigin stored = .ok ds

/-- Whoever chooses the entity, each document is read as one of the schema. -/
theorem Mapper.Resolved.exists_read {m : Mapper} (hm : m.Resolved) {stored : List Json}
    {ds : List Document} (h : m.HasRead stored ds) {d : Document} (hd : d ∈ ds) :
    ∃ e ∈ m.schema.all, ∃ raw ∈ stored, e.read m.topology raw = .ok d := by
  rcases h with ⟨entity, h⟩ | h
  · obtain ⟨e, he, h⟩ := bind_eq_ok.mp h
    obtain ⟨raw, hraw, hread⟩ := (mem_mapM_iff h).mp hd
    exact ⟨e, (hm.wellFormed.lookup_eq_ok he).1, raw, hraw, hread⟩
  · obtain ⟨raw, hraw, hrun⟩ := (mem_mapM_iff h).mp hd
    obtain ⟨e, he, hread⟩ := bind_eq_ok.mp hrun
    obtain ⟨-, handle, -, -, howner⟩ := originOf_eq_ok_iff.mp he
    exact ⟨e, (hm.wellFormed.ofCollection_eq_ok_iff.mp howner).1, raw, hraw, hread⟩

end GraphMapper
