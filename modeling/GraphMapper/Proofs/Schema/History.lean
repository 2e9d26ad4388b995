import GraphMapper.Proofs.Schema.Arrangement

/-!
# Histories of registrations

A schema is filled by calls any of which may be refused. `registering` writes its two tables one after
the other, so a call that was refused half way would leave traces; all its checks stand before the first
write, and so it does what `Schema.register` does or nothing (`Schema.call_eq`).

After any calls from the empty schema the two tables tell the entities that were accepted by their names
and by their collections (`Schema.Indexes`), and nothing but these entities decides about the next call
(`Schema.callEach_indexes`).
-/

namespace GraphMapper

open Outcome

namespace Schema

/-! ## Calls -/

/-- A registration that changes a schema in place: what it has written stays when it is refused. -/
def registering (e : Entity) : ExceptT Error (StateM Schema) Unit := do
  if Dict.contains (← get).entities e.name then throw (.duplicateEntity e.name)
  ofExcept e.validate
  let collection := e.collectionName
  if Dict.contains (← get).owners collection then throw (.collectionNameCollision collection)
  modify fun s => { s with owners := Dict.insert s.owners collection e.name }
  modify fun s => { s with entities := Dict.insert s.entities e.name e }

/-- What a call answers, and the schema that it leaves. -/
def call (s : Schema) (e : Entity) : Except Error Unit × Schema := (registering e).run.run s

/-- Calls in order, each with what it answers, and the schema that the last one leaves. -/
def callEach (s : Schema) : List Entity → List (Entity × Except Error Unit) × Schema
  | [] => ([], s)
  | e :: rest =>
    let after := (s.call e).2.callEach rest
    ((e, (s.call e).1) :: after.1, after.2)

/-- The entities whose calls were not refused. -/
def accepted (calls : List (Entity × Except Error Unit)) : List Entity :=
  (calls.filter fun c => c.2.isOk).map (·.1)

/-- A check sees the schema as the call has found it. -/
theorem run_check (taken : Schema → Bool) (refuse accept : ExceptT Error (StateM Schema) Unit)
    (s : Schema) :
    (do if taken (← get) then refuse else accept : ExceptT Error (StateM Schema) Unit).run.run s =
      if taken s then refuse.run.run s else accept.run.run s := by
  change (if taken s = true then refuse else accept).run.run s = _
  split <;> rfl

/-- What a registration makes of a call: the schema stays as it was unless the entity is accepted. -/
def settle (s : Schema) : Except Error Schema → Except Error Unit × Schema
  | .ok s' => (.ok (), s')
  | .error fault => (.error fault, s)

/-- A call changes a schema as a registration does, and not at all if it is refused. -/
theorem call_eq (s : Schema) (e : Entity) : s.call e = s.settle (s.register e) := by
  unfold call registering register
  refine (run_check (fun s => Dict.contains s.entities e.name) _ _ s).trans ?_
  split
  · rfl
  · cases e.validate with
    | error fault => rfl
    | ok _ =>
      refine (run_check (fun s => Dict.contains s.owners e.collectionName) _ _ s).trans ?_
      change _ = s.settle (if Dict.contains s.owners e.collectionName = true then _ else _)
      split <;> rfl

/-! ## Accepted entities -/

/-- The schema holds these entities and nothing else, and tells them by their names and by their
collections. -/
structure Indexes (s : Schema) (es : List Entity) : Prop where
  lookup : ∀ name e, s.lookup name = .ok e ↔ e ∈ es ∧ e.name = name
  unknown : ∀ name, (∀ e ∈ es, e.name ≠ name) → s.lookup name = .error (.unknownEntity name)
  ofCollection? : ∀ collection e,
    s.ofCollection? collection = some e ↔ e ∈ es ∧ e.collectionName = collection
  members : ∀ e ∈ es, e.memberNames.Nodup ∧
    ∀ name ∈ e.memberNames, Text.isIdentifier name = true ∧ name ∉ reservedNames
  collections : ∀ e ∈ es, Text.isIdentifier e.collectionName = true ∧
    e.collectionName.toList.head? ≠ some '_'

variable {s : Schema} {es : List Entity}

/-- Calls lead from registered schemas to registered ones. -/
theorem Registered.callEach (h : s.Registered) : (s.callEach es).2.Registered := by
  induction es generalizing s with
  | nil => exact h
  | cons e rest ih =>
    rw [Schema.callEach, call_eq]
    cases hcall : s.register e with
    | error fault => exact ih h
    | ok t => exact ih (h.register hcall)

/-- After some calls a schema has the members that it had and those that were accepted. -/
theorem mem_all_callEach {e : Entity} :
    e ∈ (s.callEach es).2.all ↔ e ∈ s.all ∨ e ∈ accepted (s.callEach es).1 := by
  induction es generalizing s with
  | nil => simp [Schema.callEach, accepted]
  | cons first rest ih =>
    rw [Schema.callEach, call_eq]
    cases hcall : s.register first with
    | error fault => exact ih
    | ok t =>
      obtain ⟨hname, -, -, rfl⟩ := register_eq_ok hcall
      have hmembers := mem_all_register hname e
      change e ∈ (Schema.callEach _ rest).2.all ↔
        e ∈ s.all ∨ e ∈ first :: accepted (Schema.callEach _ rest).1
      rw [ih, List.mem_cons, ← or_assoc, or_comm (a := e ∈ s.all)]
      exact or_congr_left hmembers

theorem map_fst_callEach : (s.callEach es).1.map (·.1) = es := by
  induction es generalizing s with
  | nil => rfl
  | cons e rest ih => exact congrArg (e :: ·) ih

/-- The names of a schema are those of its members. -/
theorem WellFormed.mem_names_iff (hs : s.WellFormed) {name : String} :
    name ∈ Dict.keys s.entities ↔ ∃ e ∈ s.all, e.name = name := by
  constructor
  · intro h
    obtain ⟨entry, hentry, rfl⟩ := List.mem_map.mp h
    exact ⟨entry.2, List.mem_map_of_mem hentry, (hs.key_eq_name entry hentry).symm⟩
  · rintro ⟨e, he, rfl⟩
    exact List.mem_map_of_mem (hs.mem_all_iff.mp he)

/-- A registered schema tells its members. -/
theorem Registered.indexes (h : s.Registered) (hall : ∀ e, e ∈ s.all ↔ e ∈ es) : s.Indexes es := by
  have hs := h.wellFormed
  have hvalid : ∀ e ∈ es, e.Valid := fun e he =>
    Entity.validate_eq_ok_iff.mp (hs.valid e ((hall e).mpr he))
  constructor
  case lookup =>
    intro name e
    rw [← hall e]
    constructor
    · exact hs.lookup_eq_ok
    · rintro ⟨he, rfl⟩
      exact hs.lookup_of_mem he
  case unknown =>
    intro name hnone
    have hfree : s.entity? name = none := by
      refine Dict.find?_eq_none_iff.mpr (mt hs.mem_names_iff.mp ?_)
      rintro ⟨e, he, heq⟩
      exact hnone e ((hall e).mp he) heq
    rw [Schema.lookup, hfree]
  case ofCollection? =>
    intro collection e
    rw [← hall e]
    exact hs.ofCollection?_eq_some_iff
  case members =>
    intro e he
    refine ⟨(hvalid e he).nodup, fun name hname => ?_⟩
    have hmember : isMemberName name = true := by
      rcases List.mem_append.mp hname with hname | hname
      · obtain ⟨a, ha, rfl⟩ := List.mem_map.mp hname
        exact ((hvalid e he).attributes a ha).name
      · obtain ⟨r, hr, rfl⟩ := List.mem_map.mp hname
        exact ((hvalid e he).relationships r hr).name
    exact ⟨(Bool.and_eq_true_iff.mp hmember).1, Entity.not_mem_reservedNames hmember⟩
  case collections =>
    intro e he
    obtain ⟨hidentifier, hfirst⟩ := Bool.and_eq_true_iff.mp (hvalid e he).collection
    exact ⟨hidentifier, by simpa using hfirst⟩

/-- A registration of a registered schema is accepted when the entity is valid on its own and shares
neither its name nor its collection with a member. -/
theorem Registered.exists_register_iff (h : s.Registered) (hall : ∀ e, e ∈ s.all ↔ e ∈ es)
    {e : Entity} : (∃ s', s.register e = .ok s') ↔ e.Valid ∧ (∀ e' ∈ es, e'.name ≠ e.name) ∧
      ∀ e' ∈ es, e'.collectionName ≠ e.collectionName := by
  have hnames : e.name ∉ Dict.keys s.entities ↔ ∀ e' ∈ es, e'.name ≠ e.name := by
    simp [h.wellFormed.mem_names_iff, hall]
  have hcollections : e.collectionName ∉ Dict.keys s.owners ↔
      ∀ e' ∈ es, e'.collectionName ≠ e.collectionName := by
    have howners : e.collectionName ∈ s.collections ↔ _ := h.wellFormed.mem_collections_iff
    rw [Schema.collections] at howners
    simp [howners, hall]
  simp only [register_eq_ok_iff, hnames, hcollections, exists_and_left, exists_eq, and_true]
  tauto

/-- What any calls leave is known by the entities that they have accepted. The next call does to it what
a registration does; if it is refused, the schema is as it was, and it is accepted exactly when its entity
is valid on its own and neither its name nor its collection is taken. -/
theorem callEach_indexes (es : List Entity) :
    let (calls, s) := callEach {} es
    calls.map (·.1) = es ∧ s.Indexes (accepted calls) ∧
      ∀ e, s.call e = s.settle (s.register e) ∧
        (∀ fault, (s.call e).1 = .error fault → (s.call e).2 = s) ∧
        ((s.call e).1 = .ok () ↔ e.Valid ∧ (∀ e' ∈ accepted calls, e'.name ≠ e.name) ∧
          ∀ e' ∈ accepted calls, e'.collectionName ≠ e.collectionName) := by
  have hregistered : (callEach {} es).2.Registered := Registered.empty.callEach
  have hall : ∀ e, e ∈ (callEach {} es).2.all ↔ e ∈ accepted (callEach {} es).1 := by
    intro e
    rw [mem_all_callEach]
    exact or_iff_right List.not_mem_nil
  refine ⟨map_fst_callEach, hregistered.indexes hall, fun e => ⟨call_eq _ e, ?_, ?_⟩⟩
  · intro fault hfault
    rw [call_eq] at hfault ⊢
    cases hcall : (callEach {} es).2.register e with
    | ok s' => simp [hcall, settle] at hfault
    | error _ => rfl
  · rw [← hregistered.exists_register_iff hall, call_eq]
    cases (callEach {} es).2.register e <;> simp [settle]

/-- Calls of which three are refused: two names have the same small letters, one name is given twice, and
one begins with an underscore. -/
theorem callEach_indexes_books :
    let es : List Entity := [{ name := "Book" }, { name := "BOOK" }, { name := "Book" },
      { name := "_Page" }, { name := "Page" }]
    let (calls, s) := callEach {} es
    calls.map (fun c => c.2.isOk) = [true, false, false, false, true] ∧
      (accepted calls).map (·.name) = ["Book", "Page"] ∧
    calls.map (·.1) = es ∧ s.Indexes (accepted calls) ∧
      ∀ e, s.call e = s.settle (s.register e) ∧
        (∀ fault, (s.call e).1 = .error fault → (s.call e).2 = s) ∧
        ((s.call e).1 = .ok () ↔ e.Valid ∧ (∀ e' ∈ accepted calls, e'.name ≠ e.name) ∧
          ∀ e' ∈ accepted calls, e'.collectionName ≠ e.collectionName) := by
  intro es
  exact ⟨by decide +kernel, by decide +kernel, callEach_indexes es⟩

end Schema

end GraphMapper
