import GraphMapper.Proofs.Outcome
import GraphMapper.Schema.Validity
import Mathlib.Data.List.Nodup

/-!
# Valid declarations

What the checks of an entity accept, said without their order (`Entity.validate_eq_ok_iff`): every
name is one that may be given, every default has the type of its attribute, and no two members share
a name.
-/

namespace GraphMapper

open Outcome

theorem requireDeclared_eq_ok {test : Bool} {fault : DeclarationFault} :
    requireDeclared test fault = .ok () ↔ test = true := by
  cases test <;> simp [requireDeclared]

/-- The names that a relationship gives may be given. -/
structure Relationship.Valid (r : Relationship) : Prop where
  name : isMemberName r.name = true
  target : Text.isIdentifier r.target = true
  graph : r.graph.all Text.isGraphName = true
  relatedName : r.relatedName.all isMemberName = true
  edgeCollection : r.edgeCollection.all Text.isCollectionName = true

/-- The attribute has a name that may be given, and its default has its type. -/
structure Attribute.Valid (a : Attribute) : Prop where
  name : isMemberName a.name = true
  default : a.default.all a.type.accepts = true

namespace Entity

/-- The names of all members, attributes first. -/
def memberNames (e : Entity) : List String :=
  e.attributes.map (·.name) ++ e.relationships.map (·.name)

/-- A declaration without faults. -/
structure Valid (e : Entity) : Prop where
  name : Text.isIdentifier e.name = true
  collection : Text.isCollectionName e.collectionName = true
  attributes : ∀ a ∈ e.attributes, a.Valid
  relationships : ∀ r ∈ e.relationships, r.Valid
  nodup : e.memberNames.Nodup

variable {e : Entity}

/-- An entity has no member of a name that none of its members bears. -/
theorem hasMember_eq_false_iff {name : String} :
    e.hasMember name = false ↔ name ∉ e.memberNames := by
  simp [hasMember, attribute?, relationship?, memberNames]

/-- The checks of a list of members, each with the names before it. -/
theorem validateEach_eq_ok_iff {α : Type} {name : α → String} {Valid : α → Prop}
    (check : List String → α → Except Error Unit)
    {run : List String → List α → Except Error Unit} {seen : List String} {members : List α}
    (hcheck : ∀ seen a, check seen a = .ok () ↔ Valid a ∧ name a ∉ seen)
    (hnil : ∀ seen, run seen [] = .ok ())
    (hcons : ∀ seen a rest, run seen (a :: rest) = check seen a >>= fun _ =>
      run (name a :: seen) rest) :
    run seen members = .ok () ↔
      (∀ a ∈ members, Valid a) ∧ (members.map name).Nodup ∧ ∀ a ∈ members, name a ∉ seen := by
  induction members generalizing seen with
  | nil => simp [hnil]
  | cons a rest ih =>
    rw [hcons, check_bind_eq_ok, hcheck, ih, List.forall_mem_cons, List.forall_mem_cons,
      List.map_cons, List.nodup_cons, List.mem_map]
    simp only [List.mem_cons, not_or, not_exists, not_and]
    constructor
    · rintro ⟨⟨hvalid, hnew⟩, hrest, hnodup, hothers⟩
      refine ⟨⟨hvalid, hrest⟩, ⟨?_, hnodup⟩, hnew, fun b hb => (hothers b hb).2⟩
      exact fun b hb => (hothers b hb).1
    · rintro ⟨⟨hvalid, hrest⟩, ⟨hfresh, hnodup⟩, hnew, hothers⟩
      exact ⟨⟨hvalid, hnew⟩, hrest, hnodup, fun b hb => ⟨hfresh b hb, hothers b hb⟩⟩

theorem validateAttribute_eq_ok_iff {seen : List String} {a : Attribute} :
    e.validateAttribute seen a = .ok () ↔ a.Valid ∧ a.name ∉ seen := by
  unfold validateAttribute
  simp only [check_bind_eq_ok, requireDeclared_eq_ok, Bool.not_eq_true', List.contains_eq_mem,
    decide_eq_false_iff_not]
  constructor
  · rintro ⟨hname, hnew, hdefault⟩
    exact ⟨⟨hname, hdefault⟩, hnew⟩
  · rintro ⟨⟨hname, hdefault⟩, hnew⟩
    exact ⟨hname, hnew, hdefault⟩

theorem validateRelationship_eq_ok_iff {seen : List String} {r : Relationship} :
    e.validateRelationship seen r = .ok () ↔ r.Valid ∧ r.name ∉ seen := by
  unfold validateRelationship
  simp only [check_bind_eq_ok, requireDeclared_eq_ok, Bool.not_eq_true', List.contains_eq_mem,
    decide_eq_false_iff_not]
  constructor
  · rintro ⟨hname, hnew, htarget, hgraph, hrelated, hedges⟩
    exact ⟨⟨hname, htarget, hgraph, hrelated, hedges⟩, hnew⟩
  · rintro ⟨⟨hname, htarget, hgraph, hrelated, hedges⟩, hnew⟩
    exact ⟨hname, hnew, htarget, hgraph, hrelated, hedges⟩

theorem validateAttributes_eq_ok_iff {seen : List String} {as : List Attribute} :
    e.validateAttributes seen as = .ok () ↔
      (∀ a ∈ as, a.Valid) ∧ (as.map (·.name)).Nodup ∧ ∀ a ∈ as, a.name ∉ seen :=
  validateEach_eq_ok_iff e.validateAttribute (fun _ _ => validateAttribute_eq_ok_iff)
    (fun _ => rfl) fun _ _ _ => rfl

theorem validateRelationships_eq_ok_iff {seen : List String} {rs : List Relationship} :
    e.validateRelationships seen rs = .ok () ↔
      (∀ r ∈ rs, r.Valid) ∧ (rs.map (·.name)).Nodup ∧ ∀ r ∈ rs, r.name ∉ seen :=
  validateEach_eq_ok_iff e.validateRelationship (fun _ _ => validateRelationship_eq_ok_iff)
    (fun _ => rfl) fun _ _ _ => rfl

/-- The checks accept exactly the declarations without faults. -/
theorem validate_eq_ok_iff : e.validate = .ok () ↔ e.Valid := by
  unfold validate
  simp only [check_bind_eq_ok, requireDeclared_eq_ok, validateAttributes_eq_ok_iff,
    validateRelationships_eq_ok_iff]
  constructor
  · rintro ⟨hname, hcollection, ⟨hattribute, hown, -⟩, hrelationship, hothers, hapart⟩
    refine ⟨hname, hcollection, hattribute, hrelationship, ?_⟩
    refine List.nodup_append.mpr ⟨hown, hothers, ?_⟩
    intro n hn n' hn'
    obtain ⟨r, hr, rfl⟩ := List.mem_map.mp hn'
    exact fun heq => hapart r hr (List.mem_reverse.mpr (heq ▸ hn))
  · intro h
    obtain ⟨hown, hothers, hapart⟩ := List.nodup_append.mp h.nodup
    refine ⟨h.name, h.collection, ⟨h.attributes, hown, by simp⟩, h.relationships, hothers, ?_⟩
    intro r hr hmem
    exact hapart _ (List.mem_reverse.mp hmem) _ (List.mem_map_of_mem hr) rfl

end Entity

end GraphMapper
