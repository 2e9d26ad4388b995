import GraphMapper.Proofs.Document.Stored
import GraphMapper.Proofs.Document.Updating

/-!
# Inserting what was left unset

A new document need not give the attributes that have a default or may be null. A registration takes
each default that has the type of its attribute, and null has every type; an insertion refuses null
where the attribute is required, be it given or a default. So a document that gives no wrong value is
inserted with its defaults unless it leaves a required attribute unset whose default is null
(`Mapper.Resolved.insert_completed`).
-/

namespace GraphMapper

open Outcome

/-! ## Completing a document -/

/-- The value of an attribute of a new document: the one given, else the default, else null. -/
def Document.completed (d : Document) (a : Attribute) : Value :=
  (Dict.find? d.attributes a.name).getD (a.default.getD .null)

/-- The document has no relations and gives only declared attributes, each a value that may stand
there. Those that it leaves unset have a default or may be null. -/
structure Document.Completable (d : Document) (e : Entity) : Prop where
  declared : ∀ entry ∈ d.attributes, ∃ a ∈ e.attributes, a.name = entry.1
  given : ∀ a ∈ e.attributes, ∀ v, Dict.find? d.attributes a.name = some v →
    a.type.accepts v = true ∧ (a.required = true → v.isNull = false)
  unset : ∀ a ∈ e.attributes, Dict.find? d.attributes a.name = none →
    a.default.isSome = true ∨ a.nullable = true
  relations : d.relations = []

/-- The document leaves a required attribute to a default that is null. -/
def Document.LeavesNull (d : Document) (a : Attribute) : Prop :=
  Dict.find? d.attributes a.name = none ∧ a.required = true ∧ a.default = some .null

theorem Value.isNull_iff {v : Value} : v.isNull = true ↔ v = .null := by
  cases v <;> simp [isNull]

theorem Entity.isSome_attribute?_iff {e : Entity} {name : String} :
    (e.attribute? name).isSome = true ↔ ∃ a ∈ e.attributes, a.name = name := by
  simp [attribute?]

namespace Document.Completable

variable {d : Document} {e : Entity} (hd : d.Completable e) {a : Attribute} (ha : a ∈ e.attributes)
include hd ha

theorem initial_eq : d.initial e a = .ok (d.completed a) := by
  unfold Document.initial Document.completed Attribute.initial
  cases hgiven : Dict.find? d.attributes a.name with
  | some v => rfl
  | none =>
    cases hdefault : a.default with
    | some v => rfl
    | none =>
      have hnullable : a.nullable = true := by simpa [hdefault] using hd.unset a ha hgiven
      exact if_pos hnullable

/-- A registered default has the type of its attribute, as the given values do. -/
theorem accepts_completed (he : e.Valid) : a.type.accepts (d.completed a) = true := by
  unfold Document.completed
  cases hgiven : Dict.find? d.attributes a.name with
  | some v => exact (hd.given a ha v hgiven).1
  | none =>
    cases hdefault : a.default with
    | some v => simpa [hdefault] using (he.attributes a ha).default
    | none => cases a.type <;> rfl

/-- Only a default can put null where a value is required. -/
theorem completed_null_iff :
    ((d.completed a).isNull = true ∧ a.required = true) ↔ d.LeavesNull a := by
  unfold Document.LeavesNull Document.completed
  cases hgiven : Dict.find? d.attributes a.name with
  | some v =>
    have hvalue := (hd.given a ha v hgiven).2
    simp only [Option.getD_some, reduceCtorEq, false_and, iff_false, not_and]
    intro hnull hrequired
    rw [hvalue hrequired] at hnull
    cases hnull
  | none =>
    have hunset := hd.unset a ha hgiven
    rw [Option.getD_none, Value.isNull_iff]
    cases hdefault : a.default with
    | some v => simp [and_comm]
    | none =>
      have hnullable : a.nullable = true := by simpa [hdefault] using hunset
      simp [Attribute.required, hnullable]

end Document.Completable

/-! ## The members of a completed document -/

/-- A value of the right type is refused only where it is null and may not be. -/
theorem Attribute.check_eq {a : Attribute} {e : Entity} {v : Value} (h : a.type.accepts v = true) :
    a.check e v = if v.isNull ∧ a.required then
      .error (.invalidQuery (.requiredAttribute ⟨e.name, a.name⟩)) else .ok () := by
  rw [check, if_pos h]

/-- When every attribute has a value of its type, the members hold these values, and the first null
where one is required is refused. -/
theorem Entity.initialMembers_eq {e : Entity} {given : Dict String Value} {value : Attribute → Value}
    {as : List Attribute}
    (hvalue : ∀ a ∈ as, a.initial e (Dict.find? given a.name) = .ok (value a))
    (haccepts : ∀ a ∈ as, a.type.accepts (value a) = true) :
    e.initialMembers given as =
      match as.find? fun a => (value a).isNull && a.required with
      | none => .ok (as.map fun a => (a.name, (value a).toJson))
      | some a => .error (.invalidQuery (.requiredAttribute ⟨e.name, a.name⟩)) := by
  induction as with
  | nil => rfl
  | cons a rest ih =>
    rw [List.forall_mem_cons] at hvalue haccepts
    rw [initialMembers, hvalue.1, ih hvalue.2 haccepts.2]
    change (a.check e (value a) >>= _) = _
    rw [Attribute.check_eq haccepts.1, List.find?_cons]
    by_cases hnull : (value a).isNull = true ∧ a.required = true
    · simp only [hnull, and_self, Bool.and_self, if_true]
      rfl
    · rw [if_neg hnull, Bool.eq_false_iff.mpr (mt Bool.and_eq_true_iff.mp hnull)]
      dsimp only [bind, Except.bind]
      cases rest.find? fun a => (value a).isNull && a.required <;> rfl

namespace Mapper

variable {m : Mapper} {e : Entity} {d : Document} {freshKey : String}

/-- An insertion without relations is made or refused as the members of its document are. -/
theorem insert_eq (he : m.schema.lookup d.entity = .ok e)
    (hknown : e.checkKnown d.attributes = .ok ()) (hrelations : d.relations = []) :
    m.insert freshKey d = (e.initialMembers d.attributes e.attributes).map fun members =>
      [Statement.closed (.insertDocument (.named "doc") e.collectionName)
        [(.named "doc", .object (storedEntries (d.key.getD freshKey) members))]] := by
  rw [insert, he, hrelations]
  dsimp only [bind, Except.bind]
  rw [hknown]
  cases e.initialMembers d.attributes e.attributes <;> rfl

/-- A completable document is inserted exactly if no required attribute is left to a default that is
null, and that is the only fault there can be. One statement then stores it: its key, for each of the
attributes the value given, the default or null, and nothing else. -/
theorem Resolved.insert_completed (hm : m.Resolved) (he : m.schema.lookup d.entity = .ok e)
    (hd : d.Completable e) (freshKey : String) :
    ((∃ statements, m.insert freshKey d = .ok statements) ↔
      ∀ a ∈ e.attributes, ¬ d.LeavesNull a) ∧
    (∀ fault, m.insert freshKey d = .error fault → ∃ a ∈ e.attributes, d.LeavesNull a ∧
      fault = .invalidQuery (.requiredAttribute ⟨e.name, a.name⟩)) ∧
    ∀ statements, m.insert freshKey d = .ok statements → ∃ stored : Dict String Json,
      statements = [Statement.closed (.insertDocument (.named "doc") e.collectionName)
        [(.named "doc", .object stored)]] ∧
      Dict.find? stored "_key" = some (.string (d.key.getD freshKey)) ∧
      (∀ a ∈ e.attributes, Dict.find? stored a.name = some (d.completed a).toJson) ∧
      ∀ name, name ≠ "_key" → (∀ a ∈ e.attributes, a.name ≠ name) →
        Dict.find? stored name = none := by
  have hvalidated := hm.wellFormed.valid e (hm.wellFormed.lookup_eq_ok he).1
  have hvalid := Entity.validate_eq_ok_iff.mp hvalidated
  have hknown : e.checkKnown d.attributes = .ok () :=
    Entity.checkKnown_eq_ok fun entry hentry =>
      Entity.isSome_attribute?_iff.mpr (hd.declared entry hentry)
  have hmembers := Entity.initialMembers_eq (fun a ha => hd.initial_eq ha)
    fun a ha => hd.accepts_completed ha hvalid
  rw [insert_eq he hknown hd.relations]
  cases hfound : e.attributes.find? fun a => (d.completed a).isNull && a.required with
  | some a =>
    rw [hfound] at hmembers
    rw [hmembers]
    have ha := List.mem_of_find?_eq_some hfound
    have hrefused := List.find?_some hfound
    have hnull := (hd.completed_null_iff ha).mp (Bool.and_eq_true_iff.mp hrefused)
    refine ⟨⟨?_, fun hnone => absurd hnull (hnone a ha)⟩, ?_, ?_⟩
    · rintro ⟨statements, h⟩
      cases h
    · intro fault h
      exact ⟨a, ha, hnull, (Except.error.inj h).symm⟩
    · intro statements h
      cases h
  | none =>
    rw [hfound] at hmembers
    rw [hmembers]
    refine ⟨⟨fun _ a ha hnull => ?_, fun _ => ⟨_, rfl⟩⟩, ?_, ?_⟩
    · have hkept := List.find?_eq_none.mp hfound a ha
      exact hkept (Bool.and_eq_true_iff.mpr ((hd.completed_null_iff ha).mpr hnull))
    · intro fault h
      cases h
    · intro statements h
      refine ⟨_, (Except.ok.inj h).symm, find?_storedEntries hvalidated hmembers "_key", ?_, ?_⟩
      · intro a ha
        obtain ⟨v, hv, -, hstored⟩ := find?_attribute hvalidated hmembers (d.key.getD freshKey) ha
        obtain rfl := Except.ok.inj ((hd.initial_eq ha).symm.trans hv)
        exact hstored
      · intro name hkey hother
        exact find?_other hvalidated hmembers (by simpa using hother) hkey

end Mapper

/-! ## A library -/

/-- A mapper of one entity knows that entity. -/
theorem Mapper.lookup_of_isOk {e : Entity} (h : (Mapper.ofEntities [e] {}).isOk = true) :
    ((Mapper.ofEntities [e] {}).toOption.getD ⟨{}, {}, {}⟩).schema.lookup e.name = .ok e := by
  obtain ⟨m, hm⟩ := exists_of_isOk h
  obtain ⟨s, hs, hresolve⟩ := bind_eq_ok.mp hm
  obtain ⟨t, -, heq⟩ := bind_eq_ok.mp hresolve
  obtain ⟨s', hregister, hs⟩ := bind_eq_ok.mp hs
  obtain rfl := pure_eq_ok.mp hs
  obtain rfl := pure_eq_ok.mp heq
  rw [hm]
  exact Schema.lookup_register hregister

namespace Library

/-- The books of a library. Each has a title; the number of its pages is left to a default, and its
genre may be null. -/
def book (pages : Value) : Entity where
  name := "Book"
  collection := some "books"
  attributes := [{ name := "title", type := .string },
    { name := "pages", type := .integer, default := some pages },
    { name := "genre", type := .string, nullable := true }]

/-- The mapper of the library. -/
def mapper (pages : Value) : Mapper :=
  (Mapper.ofEntities [book pages] {}).toOption.getD ⟨{}, {}, {}⟩

/-- A new book of which the title is all that is known. -/
def entry : Document where
  entity := "Book"
  key := some "1"
  attributes := [("title", .string "Emma")]

theorem completable_entry {pages : Value} : entry.Completable (book pages) := by
  constructor
  case declared =>
    intro given hgiven
    obtain rfl := List.mem_singleton.mp hgiven
    exact ⟨_, List.mem_cons_self, rfl⟩
  case given =>
    simp [book, entry, Dict.find?, FieldType.accepts, Value.isNull]
  case unset =>
    simp [book, entry, Dict.find?]
  case relations => rfl

theorem mapper_isOk : (Mapper.ofEntities [book (.int 100)] {}).isOk = true := by decide +kernel

/-- Null has every type, so it is taken as the default of the pages. -/
theorem mapper_null_isOk : (Mapper.ofEntities [book .null] {}).isOk = true := by decide +kernel

end Library

/-- The title is written as it is given, the pages as their default and the genre as null. -/
theorem Mapper.insert_completed_emma : ∃ stored : Dict String Json,
    (Library.mapper (.int 100)).insert "fresh" Library.entry =
      .ok [Statement.closed (.insertDocument (.named "doc") "books")
        [(.named "doc", .object stored)]] ∧
    Dict.find? stored "_key" = some (.string "1") ∧
    Dict.find? stored "title" = some (.string "Emma") ∧
    Dict.find? stored "pages" = some (.ofInt64 100) ∧ Dict.find? stored "genre" = some .null := by
  have hm : (Library.mapper (.int 100)).Resolved := Mapper.resolved_of_isOk Library.mapper_isOk
  have he : (Library.mapper (.int 100)).schema.lookup "Book" = .ok (Library.book (.int 100)) :=
    Mapper.lookup_of_isOk Library.mapper_isOk
  obtain ⟨hmade, -, hstored⟩ := Mapper.Resolved.insert_completed (d := Library.entry) hm he
    Library.completable_entry "fresh"
  obtain ⟨statements, hinsert⟩ := hmade.mpr fun a ha hnull => by
    simp only [Library.book, List.mem_cons, List.not_mem_nil, or_false] at ha
    obtain ⟨-, hrequired, hdefault⟩ := hnull
    rcases ha with rfl | rfl | rfl
    · cases hdefault
    · cases hdefault
    · cases hrequired
  obtain ⟨stored, rfl, hkey, hattributes, -⟩ := hstored statements hinsert
  simp only [Library.book, List.forall_mem_cons] at hattributes
  obtain ⟨htitle, hpages, hgenre, -⟩ := hattributes
  exact ⟨stored, hinsert, hkey, htitle, hpages, hgenre⟩

/-- A book whose number of pages is required and by default null is registered, and cannot be inserted
without that number. -/
theorem Mapper.insert_null_default :
    (Library.mapper .null).Resolved ∧
    (Library.mapper .null).schema.lookup Library.entry.entity = .ok (Library.book .null) ∧
    Library.entry.Completable (Library.book .null) ∧
    (Library.mapper .null).insert "fresh" Library.entry =
      .error (.invalidQuery (.requiredAttribute ⟨"Book", "pages"⟩)) := by
  have he : (Library.mapper .null).schema.lookup "Book" = .ok (Library.book .null) :=
    Mapper.lookup_of_isOk Library.mapper_null_isOk
  refine ⟨Mapper.resolved_of_isOk Library.mapper_null_isOk, he, Library.completable_entry, ?_⟩
  rw [Mapper.insert_eq he rfl rfl]
  rfl

end GraphMapper
