import GraphMapper.Proofs.Relation.Hops
import Mathlib.Data.Finset.Basic

/-!
# Statements on an edge store

A store is a set of edge records. `Statement.runEdges` reads the two statements that change one:
an insertion adds one record, and a removal takes away the records of one collection whose ends
have the values of its slots. A statement that lacks the value of a slot changes nothing. What a
database does with the texts of the statements is the same (`Mutation.runEdges_eq`).

`Hop.Reads` are the pairs of documents that a hop leads along in a store. `reads_sweep` and
`reads_insertEdge` say what the two kinds of statements do to them, `reads_opposite` that the
target sees the same pairs turned around, and `mem_sweep`, `mem_insertEdge` what happens to every
record.
-/

namespace GraphMapper

/-! ## Records and stores -/

/-- An edge record: the handles at its ends, as texts. -/
structure EdgeRecord where
  collection : String
  source : String
  target : String
  deriving DecidableEq, Repr

abbrev EdgeStore := Finset EdgeRecord

/-- What stands at an end of a record. -/
def Aql.EdgeEnd.of (r : EdgeRecord) : Aql.EdgeEnd → String
  | source => r.source
  | target => r.target

/-- The record of a collection that leads from `x` to `y` when it is followed in a direction. -/
def Direction.record (collection x y : String) : Direction → EdgeRecord
  | outbound => ⟨collection, x, y⟩
  | inbound => ⟨collection, y, x⟩

namespace Direction

variable (d : Direction) (collection x y : String)

@[simp] theorem record_collection : (d.record collection x y).collection = collection := by
  cases d <;> rfl

@[simp] theorem ownEnd_record : d.ownEnd.of (d.record collection x y) = x := by
  cases d <;> rfl

@[simp] theorem otherEnd_record : d.otherEnd.of (d.record collection x y) = y := by
  cases d <;> rfl

@[simp] theorem record_flip : d.flip.record collection x y = d.record collection y x := by
  cases d <;> rfl

@[simp] theorem flip_flip : d.flip.flip = d := by
  cases d <;> rfl

variable {d collection x y} in
theorem record_inj {x' y' : String}
    (h : d.record collection x y = d.record collection x' y') : x = x' ∧ y = y' := by
  have hx := congrArg (fun r => d.ownEnd.of r) h
  have hy := congrArg (fun r => d.otherEnd.of r) h
  exact ⟨by simpa using hx, by simpa using hy⟩

end Direction

/-! ## Running statements -/

namespace Statement

/-- The text that a slot has as its value. -/
def text? (st : Statement) (slot : Aql.Slot) : Option String :=
  (Dict.find? st.bindVars slot.name).bind Json.toString?

/-- Whether the ends of a record have the values of the slots. -/
def selects (st : Statement) (ends : List (Aql.EdgeEnd × Aql.Slot)) (r : EdgeRecord) : Bool :=
  ends.all fun e => st.text? e.2 == some (e.1.of r)

/-- The store after a statement. -/
def runEdges (st : Statement) (store : EdgeStore) : EdgeStore :=
  match st.command with
  | .insertEdge source target collection =>
    match st.text? source, st.text? target with
    | some x, some y => insert ⟨collection, x, y⟩ store
    | _, _ => store
  | .removeEdges collection ends =>
    store.filter fun r => ¬ (r.collection = collection ∧ st.selects ends r)
  | _ => store

theorem runEdges_insertEdge {st : Statement} {source target : Aql.Slot} {collection x y : String}
    (h : st.command = .insertEdge source target collection) (hx : st.text? source = some x)
    (hy : st.text? target = some y) (store : EdgeStore) :
    st.runEdges store = insert ⟨collection, x, y⟩ store := by
  rw [runEdges, h]
  simp only [hx, hy]

theorem mem_runEdges_removeEdges {st : Statement} {ends : List (Aql.EdgeEnd × Aql.Slot)}
    {collection : String} (h : st.command = .removeEdges collection ends) {store : EdgeStore}
    {r : EdgeRecord} :
    r ∈ st.runEdges store ↔ r ∈ store ∧ ¬ (r.collection = collection ∧ st.selects ends r) := by
  rw [runEdges, h]
  exact Finset.mem_filter

/-- A closed statement has the handles that were given for its slots. -/
theorem text?_closed {command : Aql.Command} {values : List (Aql.Slot × Json)} {slot : Aql.Slot}
    {handle : Handle} (hnodup : (values.map fun v => v.1.name).Nodup)
    (h : (slot, handle.toJson) ∈ values) :
    (closed command values).text? slot = some handle.text := by
  let entries := values.map fun v => (v.1.name, v.2)
  have hkeys : (Dict.keys entries).Nodup := by
    rw [Dict.keys, List.map_map]
    exact hnodup
  have hentry : (slot.name, handle.toJson) ∈ entries := List.mem_map.mpr ⟨_, h, rfl⟩
  have hfound : Dict.find? (Dict.ofEntries entries) slot.name = some handle.toJson := by
    rw [Dict.find?_ofEntries hkeys, (Dict.find?_eq_some_iff hkeys).mpr hentry]
  rw [text?, closed, hfound]
  rfl

/-- The ends that a closed removal selects. -/
theorem selects_closed {command : Aql.Command} {ends : List (Aql.EdgeEnd × Aql.Slot × Handle)}
    (hnodup : (ends.map fun e => e.2.1.name).Nodup) (r : EdgeRecord) :
    (closed command (ends.map fun e => (e.2.1, e.2.2.toJson))).selects
        (ends.map fun e => (e.1, e.2.1)) r = true ↔
      ∀ e ∈ ends, e.1.of r = e.2.2.text := by
  rw [selects, List.all_map, List.all_eq_true]
  apply forall₂_congr
  intro e he
  have hvalues : ((ends.map fun e => (e.2.1, e.2.2.toJson)).map fun v => v.1.name).Nodup := by
    rwa [List.map_map]
  have htext : (closed command (ends.map fun e => (e.2.1, e.2.2.toJson))).text? e.2.1 =
      some e.2.2.text := text?_closed hvalues (List.mem_map_of_mem he)
  rw [Function.comp_apply, htext, beq_iff_eq, Option.some.injEq, eq_comm]

end Statement

/-- The store after statements that are run in order. -/
def runEdges (statements : List Statement) (store : EdgeStore) : EdgeStore :=
  statements.foldl (fun store st => st.runEdges store) store

@[simp] theorem runEdges_nil (store : EdgeStore) : runEdges [] store = store := rfl

@[simp] theorem runEdges_cons (st : Statement) (rest : List Statement) (store : EdgeStore) :
    runEdges (st :: rest) store = runEdges rest (st.runEdges store) := rfl

@[simp] theorem runEdges_append (first rest : List Statement) (store : EdgeStore) :
    runEdges (first ++ rest) store = runEdges rest (runEdges first store) :=
  List.foldl_append

/-! ## What a hop reads -/

namespace Hop

/-- The pairs of documents that a hop leads along, over all of its edge collections. -/
def Reads (h : Hop) (store : EdgeStore) (x y : String) : Prop :=
  ∃ e ∈ h.edgeCollections, e.1.record e.2 x y ∈ store

instance (h : Hop) (store : EdgeStore) (x y : String) : Decidable (h.Reads store x y) :=
  inferInstanceAs (Decidable (∃ e ∈ h.edgeCollections, e.1.record e.2 x y ∈ store))

/-- The collections whose records a hop follows. -/
def collections (h : Hop) : List String := h.edgeCollections.map Prod.snd

/-- One removal of a sweep. -/
def clear (handle : Handle) (target : Option Handle) (e : Direction × String) : Statement :=
  let ends := (e.1.ownEnd, Aql.Slot.named "source", handle) ::
    (target.map fun t => (e.1.otherEnd, Aql.Slot.named "target", t)).toList
  Statement.closed (.removeEdges e.2 (ends.map fun e => (e.1, e.2.1)))
    (ends.map fun e => (e.2.1, e.2.2.toJson))

theorem sweep_eq (h : Hop) (handle : Handle) (target : Option Handle) :
    h.sweep handle target = h.edgeCollections.map (clear handle target) := rfl

theorem mem_clear {handle : Handle} {target : Option Handle} {e : Direction × String}
    {r : EdgeRecord} {store : EdgeStore} :
    r ∈ (clear handle target e).runEdges store ↔
      r ∈ store ∧ ¬ (r.collection = e.2 ∧
        e.1.ownEnd.of r = handle.text ∧ ∀ t ∈ target, e.1.otherEnd.of r = t.text) := by
  have hnodup : (((e.1.ownEnd, Aql.Slot.named "source", handle) ::
      (target.map fun t => (e.1.otherEnd, Aql.Slot.named "target", t)).toList).map
        fun e => e.2.1.name).Nodup := by
    cases target <;> simp [Aql.Slot.name]
  rw [Statement.mem_runEdges_removeEdges rfl, clear, Statement.selects_closed hnodup]
  cases target <;> simp

/-- A sweep takes away the records at the document, or those that also lead to the target. -/
theorem mem_sweep {h : Hop} {handle : Handle} {target : Option Handle} {r : EdgeRecord}
    {store : EdgeStore} :
    r ∈ runEdges (h.sweep handle target) store ↔
      r ∈ store ∧ ∀ e ∈ h.edgeCollections, r.collection = e.2 →
        ¬ (e.1.ownEnd.of r = handle.text ∧ ∀ t ∈ target, e.1.otherEnd.of r = t.text) := by
  rw [sweep_eq]
  induction h.edgeCollections generalizing store with
  | nil => simp
  | cons e rest ih =>
    rw [List.map_cons, runEdges_cons, ih, mem_clear, List.forall_mem_cons, and_assoc, not_and]

/-- An insertion adds the record that leads from the source to the target. -/
theorem mem_insertEdge {h : Hop} {source target : Handle} {r : EdgeRecord} {store : EdgeStore} :
    r ∈ runEdges [h.insertEdge source target] store ↔
      r = h.direction.record h.link.collection source.text target.text ∨ r ∈ store := by
  have hrun : ∀ first second : Handle, ∀ collection : String,
      (Statement.closed (.insertEdge (.named "from") (.named "to") collection)
        [(.named "from", first.toJson), (.named "to", second.toJson)]).runEdges store =
        insert ⟨collection, first.text, second.text⟩ store := by
    intro first second collection
    apply Statement.runEdges_insertEdge rfl
    · exact Statement.text?_closed (by simp [Aql.Slot.name]) (by simp)
    · exact Statement.text?_closed (by simp [Aql.Slot.name]) (by simp)
  rw [insertEdge, runEdges_cons, runEdges_nil]
  cases h.direction <;> simp [hrun, Direction.record]

/-! ## Pairs after a sweep and after an insertion -/

theorem reads_sweep {h : Hop} {handle : Handle} {target : Option Handle} {store : EdgeStore}
    {x y : String} :
    h.Reads (runEdges (h.sweep handle target) store) x y ↔
      h.Reads store x y ∧ ¬ (x = handle.text ∧ ∀ t ∈ target, y = t.text) := by
  constructor
  · rintro ⟨⟨d, c⟩, he, hr⟩
    obtain ⟨hstore, hkept⟩ := mem_sweep.mp hr
    refine ⟨⟨(d, c), he, hstore⟩, ?_⟩
    simpa using hkept (d, c) he (by simp)
  · rintro ⟨⟨⟨d, c⟩, he, hstore⟩, hkept⟩
    refine ⟨(d, c), he, mem_sweep.mpr ⟨hstore, ?_⟩⟩
    rintro ⟨d', c'⟩ he' hc
    obtain rfl : c = c' := by simpa using hc
    obtain rfl := direction_unique he he'
    simpa using hkept

theorem reads_insertEdge {h : Hop} {source target : Handle} {store : EdgeStore} {x y : String} :
    h.Reads (runEdges [h.insertEdge source target] store) x y ↔
      h.Reads store x y ∨ (x = source.text ∧ y = target.text) := by
  have hown : (h.direction, h.link.collection) ∈ h.edgeCollections :=
    mem_edgeCollections.mpr (Or.inl rfl)
  constructor
  · rintro ⟨⟨d, c⟩, he, hr⟩
    rcases mem_insertEdge.mp hr with heq | hstore
    · have hc : c = h.link.collection := by simpa using congrArg EdgeRecord.collection heq
      subst hc
      obtain rfl := direction_unique he hown
      exact Or.inr (Direction.record_inj heq)
    · exact Or.inl ⟨(d, c), he, hstore⟩
  · rintro (⟨e, he, hstore⟩ | ⟨rfl, rfl⟩)
    · exact ⟨e, he, mem_insertEdge.mpr (Or.inr hstore)⟩
    · exact ⟨_, hown, mem_insertEdge.mpr (Or.inl rfl)⟩

/-- The target sees the same pairs, turned around. -/
theorem reads_opposite {t : Topology} {s : Schema} {ds : List Declaration} (ht : t.Resolves s ds)
    {h b : Hop} (hp : h.place ∈ t.places) (hb : h.opposite = some b) {store : EdgeStore}
    {x y : String} : b.Reads store y x ↔ h.Reads store x y := by
  constructor
  · rintro ⟨⟨d, c⟩, he, hr⟩
    have he' := (ht.mem_edgeCollections_opposite hp hb).mp he
    exact ⟨(d.flip, c), he', by simpa using hr⟩
  · rintro ⟨⟨d, c⟩, he, hr⟩
    have he' : (d.flip.flip, c) ∈ h.edgeCollections := by simpa using he
    exact ⟨(d.flip, c), (ht.mem_edgeCollections_opposite hp hb).mpr he', by simpa using hr⟩

/-! ## Records of other collections -/

theorem mem_collections {h : Hop} {collection : String} :
    collection ∈ h.collections ↔ ∃ d, (d, collection) ∈ h.edgeCollections := by
  simp [collections]

/-- A sweep leaves the records of other collections alone. -/
theorem mem_sweep_of_notMem {h : Hop} {handle : Handle} {target : Option Handle} {r : EdgeRecord}
    {store : EdgeStore} (hr : r.collection ∉ h.collections) :
    r ∈ runEdges (h.sweep handle target) store ↔ r ∈ store := by
  rw [mem_sweep, and_iff_left]
  rintro ⟨d, c⟩ he rfl
  exact absurd (mem_collections.mpr ⟨d, he⟩) hr

theorem mem_insertEdge_of_notMem {h : Hop} {source target : Handle} {r : EdgeRecord}
    {store : EdgeStore} (hr : r.collection ∉ h.collections) :
    r ∈ runEdges [h.insertEdge source target] store ↔ r ∈ store := by
  rw [mem_insertEdge, or_iff_right]
  rintro rfl
  have hown : (h.direction, h.link.collection) ∈ h.edgeCollections :=
    mem_edgeCollections.mpr (Or.inl rfl)
  exact hr (mem_collections.mpr ⟨_, by simpa using hown⟩)

theorem mem_collections_opposite {t : Topology} {s : Schema} {ds : List Declaration}
    (ht : t.Resolves s ds) {h b : Hop} (hp : h.place ∈ t.places) (hb : h.opposite = some b)
    {collection : String} : collection ∈ b.collections ↔ collection ∈ h.collections := by
  rw [mem_collections, mem_collections]
  constructor
  · rintro ⟨d, he⟩
    exact ⟨d.flip, (ht.mem_edgeCollections_opposite hp hb).mp he⟩
  · rintro ⟨d, he⟩
    exact ⟨d.flip, (ht.mem_edgeCollections_opposite hp hb).mpr (by simpa using he)⟩

end Hop

end GraphMapper
