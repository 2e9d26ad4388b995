import GraphMapper.Mutation.Documents
import GraphMapper.Proofs.Document.Reading
import GraphMapper.Proofs.Mutation.Linking

/-!
# Writing back what was read

A document that was read can be handed to an update as it is. Its attributes have then been checked
already (`Entity.exists_patchMembers`), but its neighbours have not: reading takes an array of handles
for any relation, and a handle into any collection. The update succeeds exactly when each relation
takes the neighbours that were read under its name (`Mapper.Resolved.update_read`).
-/

namespace GraphMapper

open Outcome

/-! ## Attributes -/

/-- A value that was read passes the checks of a writer. -/
theorem Attribute.check_of_readAttribute {a : Attribute} {e : Entity} {stored : Dict String Json}
    {v : Value} (h : e.readAttribute stored a = .ok v) : a.check e v = .ok () := by
  obtain ⟨haccepts, hallowed⟩ := Entity.readAttribute_eq_ok h
  rw [check, if_neg hallowed, if_pos haccepts]

namespace Entity

variable {e : Entity}

theorem checkKnown_eq_ok {attributes : Dict String Value}
    (h : ∀ entry ∈ attributes, (e.attribute? entry.1).isSome = true) :
    e.checkKnown attributes = .ok () := by
  have hnone : List.find? (fun a => (e.attribute? a.1).isNone) attributes = none := by
    rw [List.find?_eq_none]
    intro entry hentry
    simp [Option.isSome_iff_ne_none.mp (h entry hentry)]
  rw [checkKnown, hnone]

/-- A patch is made of values that pass the checks of their attributes. -/
theorem exists_patchMembers {attributes : Dict String Value}
    (h : ∀ entry ∈ attributes, ∀ a, e.attribute? entry.1 = some a → a.check e entry.2 = .ok ()) :
    ∃ patch, e.patchMembers attributes = .ok patch := by
  induction attributes with
  | nil => exact ⟨[], rfl⟩
  | cons entry rest ih =>
    rw [List.forall_mem_cons] at h
    obtain ⟨others, hothers⟩ := ih h.2
    rw [patchMembers]
    cases hfound : e.attribute? entry.1 with
    | none => exact ⟨others, hothers⟩
    | some a =>
      refine ⟨(entry.1, entry.2.toJson) :: others, ?_⟩
      exact bind_eq_ok.mpr ⟨(), h.1 a hfound, bind_eq_ok.mpr ⟨others, hothers, rfl⟩⟩

end Entity

/-! ## Relations -/

/-- The neighbours can be written along a hop: there are not too many, and each of them lies in the
collection that the hop leads into. -/
structure Hop.Takes (h : Hop) (neighbours : Neighbours Document) : Prop where
  few : h.cardinality = .one → neighbours.toList.length ≤ 1
  placed : ∀ handle, .unread handle ∈ neighbours.toList → handle.collection = h.targetCollection

namespace Mapper

variable {m : Mapper} {source : Handle}

theorem mapM_handleOfNeighbour (handles : List Handle) :
    (handles.map Neighbour.unread).mapM m.handleOfNeighbour = .ok handles := by
  rw [mapM_eq_ok_iff, List.forall₂_map_left_iff]
  exact List.forall₂_same.mpr fun _ _ => rfl

/-- The edges of a document can be made when those of each relation can. -/
theorem exists_relationEdges_iff {clear : Bool} {relations : Dict String (Neighbours Document)} :
    (∃ statements, m.relationEdges source clear relations = .ok statements) ↔
      ∀ entry ∈ relations, ∃ targets, entry.2.toList.mapM m.handleOfNeighbour = .ok targets ∧
        ∃ edges, m.assignEdges source entry.1 targets clear = .ok edges := by
  induction relations with
  | nil => exact ⟨fun _ entry hentry => absurd hentry List.not_mem_nil, fun _ => ⟨[], rfl⟩⟩
  | cons entry rest ih =>
    rw [List.forall_mem_cons, ← ih]
    constructor
    · rintro ⟨statements, h⟩
      obtain ⟨targets, htargets, h⟩ := bind_eq_ok.mp h
      obtain ⟨edges, hedges, h⟩ := bind_eq_ok.mp h
      obtain ⟨others, hothers, -⟩ := bind_eq_ok.mp h
      exact ⟨⟨targets, htargets, edges, hedges⟩, others, hothers⟩
    · rintro ⟨⟨targets, htargets, edges, hedges⟩, others, hothers⟩
      refine ⟨edges ++ others, bind_eq_ok.mpr ⟨targets, htargets, ?_⟩⟩
      exact bind_eq_ok.mpr ⟨edges, hedges, bind_eq_ok.mpr ⟨others, hothers, rfl⟩⟩

/-- The hop of a relation of a document in the collection of an entity. -/
theorem Resolved.hopOf_eq (hm : m.Resolved) {e : Entity} (he : e ∈ m.schema.all)
    (key relation : String) :
    m.hopOf ⟨e.collectionName, key⟩ relation = m.topology.hop e.name relation := by
  have howner : m.schema.ofCollection e.collectionName = .ok e :=
    hm.wellFormed.ofCollection_eq_ok_iff.mpr ⟨he, rfl⟩
  rw [hopOf]
  dsimp only
  rw [howner]
  rfl

/-! ## Updates -/

/-- An update is made once its patch and its edges are. -/
theorem exists_update_iff {d : Document} {e : Entity} {key : String}
    (he : m.schema.lookup d.entity = .ok e) (hkey : d.key = some key)
    (hknown : e.checkKnown d.attributes = .ok ()) {patch : List (String × Json)}
    (hpatch : e.patchMembers d.attributes = .ok patch) :
    (∃ statements, m.update d = .ok statements) ↔
      ∃ edges, m.relationEdges ⟨e.collectionName, key⟩ true d.relations = .ok edges := by
  rw [update, he, hkey]
  dsimp only [bind, Except.bind]
  rw [hknown, hpatch]
  cases m.relationEdges ⟨e.collectionName, key⟩ true d.relations <;> simp [pure, Except.pure]

section

variable (hm : m.Resolved) {e : Entity} {raw : Json} {d : Document}
  (hread : e.read m.topology raw = .ok d)
include hm hread

/-- The attributes of a document that was read pass all checks of an update. -/
theorem Resolved.patch_read (he : e ∈ m.schema.all) : e.checkKnown d.attributes = .ok () ∧
    ∃ patch, e.patchMembers d.attributes = .ok patch := by
  obtain ⟨members, key, values, relations, rfl, -, -, hvalues, -, rfl⟩ :=
    Entity.read_eq_ok_iff.mp hread
  have hvalid := hm.wellFormed.valid e he
  constructor
  · refine Entity.checkKnown_eq_ok fun entry hentry => ?_
    obtain ⟨a, ha, hname, -⟩ := Entity.mem_readAttributes hvalues hentry
    rw [← hname, Entity.attribute?_of_mem hvalid ha]
    rfl
  · refine Entity.exists_patchMembers fun entry hentry a hfound => ?_
    obtain ⟨a', ha', hname, hvalue⟩ := Entity.mem_readAttributes hvalues hentry
    rw [← hname, Entity.attribute?_of_mem hvalid ha'] at hfound
    obtain rfl := Option.some.inj hfound
    exact Attribute.check_of_readAttribute hvalue

/-- The relations of a document that was read are relations of its entity, and hold handles. -/
theorem Resolved.relation_read {entry : String × Neighbours Document}
    (hentry : entry ∈ d.relations) :
    (∃ h, m.topology.hop e.name entry.1 = .ok h) ∧
      ∃ handles : List Handle, entry.2.toList = handles.map .unread := by
  obtain ⟨members, key, values, relations, rfl, -, -, -, hrelations, rfl⟩ :=
    Entity.read_eq_ok_iff.mp hread
  obtain ⟨hfound, hother⟩ := Entity.find?_readRelations (hm.relationNames_nodup e.name) hrelations
  have hvalue : Dict.find? (Dict.ofEntries relations) entry.1 = some entry.2 :=
    (Dict.find?_eq_some_iff (Dict.ofEntries_sorted relations).keys_nodup).mpr hentry
  have hname : entry.1 ∈ m.topology.relationNames e.name := by
    by_contra hnot
    rw [hother _ hnot] at hvalue
    cases hvalue
  obtain ⟨h, hh⟩ := Topology.exists_hop hname
  refine ⟨⟨h, hh⟩, ?_⟩
  have hrun := hfound _ hname
  rw [hvalue] at hrun
  exact Entity.readRelation_eq_some hrun

end

/-- A document that was read always has a patch, and it can be updated as it is exactly if every
relation takes the neighbours that were read under its name. -/
theorem Resolved.update_read (hm : m.Resolved) {stored : List Json} {ds : List Document}
    (h : m.HasRead stored ds) {d : Document} (hd : d ∈ ds) :
    (∃ e patch, m.schema.lookup d.entity = .ok e ∧ e.checkKnown d.attributes = .ok () ∧
      e.patchMembers d.attributes = .ok patch) ∧
    ((∃ statements, m.update d = .ok statements) ↔
      ∀ relation neighbours hop, (relation, neighbours) ∈ d.relations →
        m.topology.hop d.entity relation = .ok hop → hop.Takes neighbours) := by
  obtain ⟨e, he, raw, -, hread⟩ := hm.exists_read h hd
  obtain ⟨_, key, _, _, _, _, _, _, _, heq⟩ := Entity.read_eq_ok_iff.mp hread
  have hentity : d.entity = e.name := congrArg Document.entity heq
  have hkey : d.key = some key := congrArg Document.key heq
  have hlookup : m.schema.lookup d.entity = .ok e := hentity ▸ hm.wellFormed.lookup_of_mem he
  obtain ⟨hknown, patch, hpatch⟩ := hm.patch_read hread he
  refine ⟨⟨e, patch, hlookup, hknown, hpatch⟩, ?_⟩
  rw [exists_update_iff hlookup hkey hknown hpatch, exists_relationEdges_iff, hentity]
  constructor
  · intro hedges relation neighbours hop hentry hhop
    obtain ⟨-, handles, hhandles⟩ := hm.relation_read hread hentry
    obtain ⟨targets, htargets, hmade⟩ := hedges _ hentry
    obtain ⟨hop', hhop', hfew, hplaced⟩ := (exists_assignEdges_iff hm).mp hmade
    rw [hm.hopOf_eq he, hhop] at hhop'
    obtain rfl := Except.ok.inj hhop'
    simp only [hhandles, mapM_handleOfNeighbour, Except.ok.injEq] at htargets
    subst htargets
    constructor
    · intro hone
      rw [hhandles, List.length_map]
      exact hfew hone
    · intro handle hmem
      rw [hhandles] at hmem
      exact hplaced handle (by simpa using hmem)
  · rintro htakes ⟨relation, neighbours⟩ hentry
    obtain ⟨⟨hop, hhop⟩, handles, hhandles⟩ := hm.relation_read hread hentry
    obtain ⟨hfew, hplaced⟩ := htakes relation neighbours hop hentry hhop
    refine ⟨handles, hhandles ▸ mapM_handleOfNeighbour handles, ?_⟩
    refine (exists_assignEdges_iff hm).mpr ⟨hop, (hm.hopOf_eq he key relation).trans hhop, ?_, ?_⟩
    · intro hone
      simpa [hhandles] using hfew hone
    · intro handle hmem
      exact hplaced handle (by simpa [hhandles] using hmem)

theorem hasRead_singleton {stored : Json} {d : Document} (h : m.readByOrigin stored = .ok d) :
    m.HasRead [stored] [d] :=
  Or.inr (mapM_eq_ok_iff.mpr (.cons h .nil))

end Mapper

/-! ## Accounts and their owners -/

/-- A stored account with something under the name of its owner. -/
def Bank.stored (owner : Json) : Json :=
  .object [("_id", .string "accounts/1"), ("_key", .string "1"), ("balance", .ofInt64 20),
    ("owner", owner)]

/-- The fault of a query or mutation that a run has ended with. -/
def Bank.fault? {α : Type} : Except Error α → Option QueryFault
  | .error (.invalidQuery fault) => some fault
  | _ => none

theorem Bank.eq_error_of_fault? {α : Type} {x : Except Error α} {fault : QueryFault}
    (h : Bank.fault? x = some fault) : x = .error (.invalidQuery fault) := by
  unfold Bank.fault? at h
  split at h
  · exact Option.some.inj h ▸ rfl
  · cases h

/-- The owner of an account is a person, so the account can be written back. -/
theorem Mapper.update_read_owner : ∃ d,
    Bank.mapper.HasRead [Bank.stored (.string "people/1")] [d] ∧ d.relations ≠ [] ∧
      (∃ statements, Bank.mapper.update d = .ok statements) ∧
      ∀ relation neighbours hop, (relation, neighbours) ∈ d.relations →
        Bank.mapper.topology.hop d.entity relation = .ok hop → hop.Takes neighbours := by
  have hrun : (do
      let d ← Bank.mapper.readByOrigin (Bank.stored (.string "people/1"))
      let _ ← Bank.mapper.update d
      return d.relations.isEmpty).toOption = some false := by decide +kernel
  obtain ⟨d, hd, hrun⟩ := bind_eq_ok.mp (eq_ok_of_toOption hrun)
  obtain ⟨statements, hupdate, hrelations⟩ := bind_eq_ok.mp hrun
  have hread := hasRead_singleton hd
  have hne : d.relations ≠ [] := by simpa using pure_eq_ok.mp hrelations
  obtain ⟨-, hiff⟩ := Bank.mapper_resolved.update_read hread List.mem_cons_self
  exact ⟨d, hread, hne, ⟨statements, hupdate⟩, hiff.mp ⟨statements, hupdate⟩⟩

/-- An account with two owners, or with an owner that is no person, is read and cannot be written
back. -/
theorem Mapper.update_refused :
    Bank.mapper.Resolved ∧
      (∃ d, Bank.mapper.HasRead [Bank.stored (.ofStrings ["people/1", "people/2"])] [d] ∧
        Bank.mapper.update d = .error (.invalidQuery (.tooManyTargets "owner" 2))) ∧
      ∃ d, Bank.mapper.HasRead [Bank.stored (.string "accounts/2")] [d] ∧
        Bank.mapper.update d =
          .error (.invalidQuery (.wrongCollection "owner" "people" "accounts")) := by
  have hread : ∀ owner fault,
      (Bank.mapper.readByOrigin (Bank.stored owner)).isOk = true →
      Bank.fault? (Bank.mapper.readByOrigin (Bank.stored owner) >>= Bank.mapper.update) =
        some fault →
      ∃ d, Bank.mapper.HasRead [Bank.stored owner] [d] ∧
        Bank.mapper.update d = .error (.invalidQuery fault) := by
    intro owner fault hok hfault
    obtain ⟨d, hd⟩ := exists_of_isOk hok
    rw [hd] at hfault
    exact ⟨d, hasRead_singleton hd, Bank.eq_error_of_fault? hfault⟩
  exact ⟨Bank.mapper_resolved, hread _ _ (by decide +kernel) (by decide +kernel),
    hread _ _ (by decide +kernel) (by decide +kernel)⟩

end GraphMapper
