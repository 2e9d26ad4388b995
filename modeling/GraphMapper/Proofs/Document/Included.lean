import GraphMapper.Proofs.Document.Reading
import GraphMapper.Proofs.Query.Plain
import GraphMapper.Proofs.Query.Scoped

/-!
# Reading rows with inclusions

A query that includes relations returns each root document merged with the handles that the inclusions
answered (`Query.includedRow`). Reading such a row gives what reading the root document gives, but for
the included relations: these hold the answered handles (`Mapper.Resolved.include_read`).

A merge changes the members of the included names alone (`Dict.find?_merge`), and as relations are told
apart from the key and the attributes, nothing else that is read can change.
-/

namespace GraphMapper

open Outcome Aql

/-! ## Merged objects -/

/-- The entries of a table over those of another one. -/
def Dict.merge (d others : Dict String Json) : Dict String Json :=
  others.foldl (fun d e => Dict.insert d e.1 e.2) d

theorem Dict.find?_merge {d others : Dict String Json} (h : (Dict.keys others).Nodup)
    (name : String) : find? (merge d others) name = (find? others name).or (find? d name) :=
  find?_foldl_insert h

/-- The members of an object over those of another one; of values that are no objects the language
makes null. -/
def Json.merge : Json → Json → Json
  | .object members, .object others => .object (Dict.merge members others)
  | _, _ => .null

/-! ## Answers -/

/-- What the subquery of an inclusion answers with the texts of the handles that it finds: the first
of them or null, or all of them. -/
def Cardinality.answer : Cardinality → List Json → Json
  | .one, items => items.head?.getD .null
  | .many, items => .array items

/-- The neighbours that are read from such an answer, none of them fetched. -/
def Cardinality.neighbours : Cardinality → List Handle → Option (Neighbours Document)
  | .one, handles => handles.head?.map fun handle => .one (.unread handle)
  | .many, handles => some (.many (handles.map .unread))

/-- Each text is that of the handle at the same place. -/
def Handle.Texts (items : List Json) (handles : List Handle) : Prop :=
  List.Forall₂ (fun raw handle => Handle.ofJson? raw = some handle) items handles

theorem Entity.readNeighbour_ofJson? {e : Entity} {name : String} {raw : Json} {handle : Handle}
    (h : Handle.ofJson? raw = some handle) : e.readNeighbour name raw = .ok (.unread handle) := by
  rw [readNeighbour, h]

/-- An answer is read as the neighbours that it names. -/
theorem Entity.readRelation_answer {e : Entity} {t : Topology} {stored : Dict String Json}
    {name : String} {hop : Hop} (hhop : t.hop e.name name = .ok hop) {items : List Json}
    (hraw : Dict.find? stored name = some (hop.cardinality.answer items)) {handles : List Handle}
    (h : Handle.Texts items handles) :
    e.readRelation t stored name = .ok (hop.cardinality.neighbours handles) := by
  rw [readRelation_found hraw hhop]
  cases hop.cardinality with
  | one =>
    cases h with
    | nil => rfl
    | @cons raw handle _ _ hhandle _ =>
      cases raw with
      | string s =>
        have hone : e.readNeighbours name .one (.string s) =
            (e.readNeighbour name (.string s)).map .one := rfl
        change (e.readNeighbours name .one (.string s)).map some = _
        rw [hone, readNeighbour_ofJson? hhandle]
        rfl
      | _ => cases hhandle
  | many =>
    have hread : items.mapM (e.readNeighbour name) = .ok (handles.map .unread) :=
      mapM_eq_ok_iff.mpr (List.forall₂_map_right_iff.mpr (h.imp fun _ _ => readNeighbour_ofJson?))
    have hmany : e.readNeighbours name .many (.array items) =
        (items.mapM (e.readNeighbour name)).map .many := rfl
    change (e.readNeighbours name .many (.array items)).map some = _
    rw [hmany, hread]
    rfl

/-! ## Rows -/

namespace Query

variable {q : Query}

/-- The members that the inclusions of a query make of the texts that each of them finds. -/
def includedMembers (q : Query) (items : Nat → List Json) : List (String × Json) :=
  q.inclusions.mapIdx fun n i => (i.relationship, i.cardinality.answer (items n))

/-- The row of a root document with the answers to the inclusions. -/
def includedRow (q : Query) (stored : Json) (items : Nat → List Json) : Json :=
  stored.merge (.ofMembers (q.includedMembers items))

theorem keys_includedMembers (q : Query) (items : Nat → List Json) :
    Dict.keys (q.includedMembers items) = q.inclusions.map (·.relationship) := by
  refine List.ext_getElem? fun n => ?_
  cases hi : q.inclusions[n]? <;> simp [Dict.keys, includedMembers, hi]

/-- The row has the answers under the included names, and everything else is as it was stored. -/
theorem find?_includedRow (hnodup : (q.inclusions.map (·.relationship)).Nodup)
    (members : Dict String Json) (items : Nat → List Json) :
    ∃ merged, q.includedRow (.object members) items = .object merged ∧
      (∀ (n : Nat) (i : Inclusion), q.inclusions[n]? = some i →
        Dict.find? merged i.relationship = some (i.cardinality.answer (items n))) ∧
      ∀ name ∉ q.inclusions.map (·.relationship),
        Dict.find? merged name = Dict.find? members name := by
  have hkeys : (Dict.keys (q.includedMembers items)).Nodup := by rwa [keys_includedMembers]
  have hfind : ∀ name, Dict.find? (Dict.merge members (Dict.ofEntries (q.includedMembers items)))
      name = (Dict.find? (q.includedMembers items) name).or (Dict.find? members name) := by
    intro name
    rw [Dict.find?_merge (Dict.ofEntries_sorted _).keys_nodup, Dict.find?_ofEntries hkeys]
  refine ⟨_, rfl, ?_, ?_⟩
  · intro n i hi
    have hentry : (i.relationship, i.cardinality.answer (items n)) ∈ q.includedMembers items := by
      rw [includedMembers, List.mem_iff_getElem?]
      exact ⟨n, by simp [hi]⟩
    rw [hfind, (Dict.find?_eq_some_iff hkeys).mpr hentry]
    rfl
  · intro name hname
    rw [← q.keys_includedMembers items, ← Dict.find?_eq_none_iff] at hname
    rw [hfind, hname]
    rfl

end Query

/-! ## Statements

The rows of a statement are read off its clauses. No clause but the grouping of rows changes the root
document of a row, and only the inclusions set what is included. -/

/-- The values of the database are JSON, and it makes them as the language does. -/
structure Aql.Database.IsJson (db : Database Json) : Prop where
  null : db.null = .null
  array : db.array = .array
  object : db.object = Json.ofMembers
  merge : db.merge = Json.merge

/-- The texts that an inclusion finds from a root document. -/
def Aql.Database.handles (db : Database Json) (index : Nat) (edges : Edges) (document : Json) :
    List Json :=
  db.distinct ((db.adjacent index edges document).map (db.member · "_id"))

theorem Aql.Database.IsJson.included {db : Database Json} (h : db.IsJson) (index : Nat)
    (cardinality : Cardinality) (edges : Edges) (document : Json) :
    Aql.included db index cardinality edges document =
      cardinality.answer (db.handles index edges document) := by
  cases cardinality with
  | one => simp only [Aql.included, Cardinality.answer, h.null, Aql.Database.handles]
  | many => simp only [Aql.included, Cardinality.answer, h.array, Aql.Database.handles]

section

variable {V : Type} {db : Database V} {slot : Slot → V}

theorem Aql.Step.rows_sameRoot {s : Step} {b b' : Bindings V} (h : b' ∈ s.rows db slot b) :
    b'.SameRoot b := by
  cases s with
  | filter test =>
    rw [rows] at h
    split at h
    · exact List.mem_singleton.mp h ▸ .refl _
    · cases h
  | traverse index depth start edges =>
    obtain ⟨vertex, -, rfl⟩ := List.mem_map.mp h
    exact ⟨by simp, fun n => by simp⟩

/-- Matching and paging only choose rows. -/
theorem Aql.Clause.table_sameRoot {c : Clause} (hc : c.phase = 0 ∨ c.phase = 3)
    {rows : List (Bindings V)} {b' : Bindings V} (h : b' ∈ c.table db slot rows) :
    ∃ b ∈ rows, b'.SameRoot b := by
  cases c with
  | step s =>
    obtain ⟨b, hb, h⟩ := List.mem_flatMap.mp h
    exact ⟨b, hb, Step.rows_sameRoot h⟩
  | firstMatch steps columns =>
    obtain ⟨b, hb, h⟩ := List.mem_filterMap.mp h
    obtain ⟨found, -, rfl⟩ := Option.map_eq_some_iff.mp h
    exact ⟨b, hb, rfl, fun _ => rfl⟩
  | sort keys => exact ⟨b', List.mem_mergeSort.mp h, .refl b'⟩
  | limit offset count => exact ⟨b', List.mem_of_mem_drop (List.mem_of_mem_take h), .refl b'⟩
  | neighbours index cardinality edges => simp [phase] at hc
  | collect groups totals => simp [phase] at hc

theorem Aql.Clause.tables_sameRoot {clauses : List Clause}
    (hclauses : ∀ c ∈ clauses, c.phase = 0 ∨ c.phase = 3) {rows : List (Bindings V)}
    {b' : Bindings V} (h : b' ∈ tables db slot rows clauses) : ∃ b ∈ rows, b'.SameRoot b := by
  induction clauses generalizing rows with
  | nil => exact ⟨b', h, .refl b'⟩
  | cons c rest ih =>
    rw [List.forall_mem_cons] at hclauses
    obtain ⟨b, hb, hroot⟩ := ih hclauses.2 h
    obtain ⟨first, hfirst, hroot'⟩ := table_sameRoot hclauses.1 hb
    exact ⟨first, hfirst, hroot.trans hroot'⟩

/-- Inclusions are numbered from the index on. -/
theorem Aql.Bindings.including_before {topology : Topology} {entity : String} {is : List Inclusion}
    {index : Nat} {clauses : List Clause}
    (h : inclusionClauses topology entity index is = .ok clauses) {k : Nat} (hk : k < index)
    (b : Bindings V) : (b.including db clauses).value (.included k) = b.value (.included k) := by
  induction is generalizing index clauses b with
  | nil =>
    obtain rfl := Except.ok.inj h
    rfl
  | cons i rest ih =>
    obtain ⟨clause, hclause, h⟩ := bind_eq_ok.mp h
    obtain ⟨others, hothers, h⟩ := bind_eq_ok.mp h
    obtain rfl := pure_eq_ok.mp h
    obtain ⟨hop, -, hclause⟩ := bind_eq_ok.mp hclause
    obtain rfl := pure_eq_ok.mp hclause
    have hne : k ≠ index := Nat.ne_of_lt hk
    rw [including, ih hothers (Nat.lt_succ_of_lt hk)]
    simp [hne]

/-- Each inclusion finds its neighbours along its own hop, from the root document. -/
theorem Aql.Bindings.including_included {topology : Topology} {entity : String}
    {is : List Inclusion} {index : Nat} {clauses : List Clause}
    (h : inclusionClauses topology entity index is = .ok clauses) {n : Nat} {i : Inclusion}
    (hi : is[n]? = some i) (b : Bindings V) :
    ∃ hop, topology.hop entity i.relationship = .ok hop ∧
      (b.including db clauses).value (.included (index + n)) =
        included db (index + n) i.cardinality hop.edges (b.value .doc) := by
  induction is generalizing index clauses n b with
  | nil => cases hi
  | cons first rest ih =>
    obtain ⟨clause, hclause, h⟩ := bind_eq_ok.mp h
    obtain ⟨others, hothers, h⟩ := bind_eq_ok.mp h
    obtain rfl := pure_eq_ok.mp h
    obtain ⟨hop, hhop, hclause⟩ := bind_eq_ok.mp hclause
    obtain rfl := pure_eq_ok.mp hclause
    cases n with
    | zero =>
      obtain rfl : first = i := by simpa using hi
      refine ⟨hop, hhop, ?_⟩
      rw [including, Nat.add_zero, including_before hothers (Nat.lt_succ_self index)]
      simp
    | succ n =>
      have hnumber : index + (n + 1) = index + 1 + n := by omega
      rw [including, hnumber]
      simpa using ih hothers (by simpa using hi) (b.set (.included index) _)

end

/-- A query for documents has no totals and no projection. -/
theorem Outline.ofQuery_documents {q : Query} {o : Outline} (h : ofQuery q = .ok o)
    (hdocuments : q.returnsDocuments = true) : o.totals = [] ∧ o.projection = [] := by
  have hplain : ∀ s ∈ q.stages, s.reshapes = false := by
    simpa [Query.returnsDocuments] using hdocuments
  obtain ⟨o', hrun, h⟩ := bind_eq_ok.mp h
  have ho' : o'.totals = [] ∧ o'.projection = [] := by
    refine foldlM_preserves (P := fun o : Outline => o.totals = [] ∧ o.projection = [])
      (fun o s o' hs ho hstep => ?_) ⟨rfl, rfl⟩ hrun
    have hs := hplain s hs
    cases s with
    | limit count offset => exact addStage_limit hstep ▸ ho
    | project fields => cases hs
    | aggregate a => cases hs
    | _ => exact Except.ok.inj hstep ▸ ho
  dsimp only at h
  rw [ho'.1] at h
  exact pure_eq_ok.mp h ▸ ho'

/-- The rows of a query for documents are these documents, each with what its inclusions find. -/
theorem Mapper.rows_included {m : Mapper} {q : Query} {st : Statement}
    (h : m.statement q = .ok st) (hdocuments : q.returnsDocuments = true)
    (hincluded : q.inclusions ≠ []) {db : Database Json} (hdb : db.IsJson)
    {parameters : String → Json} {roots : List Json} {row : Json}
    (hrow : row ∈ st.rowsOf db parameters roots) :
    ∃ root ∈ roots, ∃ items, row = q.includedRow root items ∧
      ∀ (n : Nat) (i : Inclusion), q.inclusions[n]? = some i →
        ∃ hop, m.topology.hop q.entity i.relationship = .ok hop ∧
          items n = db.handles n hop.edges root := by
  obtain ⟨joined, o, matching, inclusions, pages, -, ho, hmatching, hinclusions, hpages, hcommand⟩ :=
    statement_eq_ok h
  obtain ⟨htotals, hprojection⟩ := Outline.ofQuery_documents ho hdocuments
  have hresult : o.result q (q.columnsOf joined) = .merged q.includedEntries := by
    simp [Outline.result, htotals, hprojection, hincluded]
  have hcollect : o.collect (q.columnsOf joined) = [] := by simp [Outline.collect, htotals]
  rw [hresult, hcollect, List.append_nil] at hcommand
  rw [Statement.rowsOf, hcommand, Command.rowsOf] at hrow
  obtain ⟨b, hb, rfl⟩ := List.mem_map.mp hrow
  -- from the last clause back to the root loop
  rw [Clause.tables_append, Clause.tables_append] at hb
  have hpaging : ∀ c ∈ pages, c.phase = 0 ∨ c.phase = 3 := fun c hc =>
    Or.inr (phase_paging hpages c hc)
  obtain ⟨found, hfound, hroot⟩ := Clause.tables_sameRoot hpaging hb
  rw [Bindings.tables_inclusions (includes_of_inclusionClauses hinclusions)] at hfound
  obtain ⟨matched, hmatched, rfl⟩ := List.mem_map.mp hfound
  obtain ⟨start, hstart, hmatched⟩ := Clause.tables_sameRoot
    (fun c hc => Or.inl (Query.phase_matching hmatching c hc)) hmatched
  obtain ⟨root, hroots, rfl⟩ := List.mem_map.mp hstart
  have hdoc : matched.value .doc = root := hmatched.doc
  have hfinds : ∀ n, ∃ items, ∀ i, q.inclusions[n]? = some i →
      b.value (.included n) = i.cardinality.answer items ∧
        ∃ hop, m.topology.hop q.entity i.relationship = .ok hop ∧
          items = db.handles n hop.edges root := by
    intro n
    cases hi : q.inclusions[n]? with
    | none => exact ⟨[], by simp⟩
    | some i =>
      obtain ⟨hop, hhop, hvalue⟩ := Bindings.including_included hinclusions hi matched
      rw [Nat.zero_add, hdb.included, hdoc] at hvalue
      refine ⟨db.handles n hop.edges root, fun i' hi' => ?_⟩
      obtain rfl := Option.some.inj hi'
      exact ⟨(hroot.included n).trans hvalue, hop, hhop, rfl⟩
  choose items hitems using hfinds
  refine ⟨root, hroots, items, ?_, fun n i hi => (hitems n i hi).2⟩
  have hmembers : q.includedEntries.map (fun e => (e.1, b.eval db e.2)) =
      q.includedMembers items := by
    refine List.ext_getElem? fun n => ?_
    cases hi : q.inclusions[n]? with
    | none => simp [Query.includedEntries, Query.includedMembers, hi]
    | some i => simp [Query.includedEntries, Query.includedMembers, hi, Bindings.eval,
        (hitems n i hi).1]
  have hroot' : b.value .doc = root :=
    hroot.doc.trans ((Bindings.including_value (by simp) inclusions).trans hdoc)
  rw [Result.value, hdb.object, hdb.merge, hmembers, hroot', Query.includedRow]

/-! ## Reading the rows -/

section

variable {m : Mapper} {draft : Draft} {e : Entity} {members merged : Dict String Json}
  {items : Nat → List Json} {handles : Nat → List Handle}

/-- An inclusion of the query is a relation of its entity, and what was found for it is read. -/
theorem Draft.Built.readRelation_included (hd : Built m draft) (hentity : draft.entity = e.name)
    {n : Nat} {i : Inclusion} (hi : draft.query.inclusions[n]? = some i)
    (hanswer : Dict.find? merged i.relationship = some (i.cardinality.answer (items n)))
    (htexts : Handle.Texts (items n) (handles n)) :
    i.relationship ∈ m.topology.relationNames e.name ∧
      e.readRelation m.topology merged i.relationship =
        .ok (i.cardinality.neighbours (handles n)) := by
  obtain ⟨hop, hhop, hcardinality⟩ := hd.inclusion_hop (List.mem_of_getElem? hi)
  rw [hentity] at hhop
  rw [← hcardinality] at hanswer ⊢
  exact ⟨Topology.mem_relationNames hhop, Entity.readRelation_answer hhop hanswer htexts⟩

/-- From the row of a stored document, what was found is read for the included relations, and all the
rest is read as from the document alone. -/
theorem Mapper.Resolved.read_included (hm : m.Resolved) (hd : Draft.Built m draft)
    (he : e ∈ m.schema.all) (hentity : draft.entity = e.name) {stored : Json} {d : Document}
    (hread : e.read m.topology stored = .ok d)
    (htexts : ∀ (n : Nat) (i : Inclusion), draft.query.inclusions[n]? = some i →
      Handle.Texts (items n) (handles n)) :
    ∃ d', e.read m.topology (draft.query.includedRow stored items) = .ok d' ∧
      d'.entity = d.entity ∧ d'.key = d.key ∧ d'.attributes = d.attributes ∧
      (∀ (n : Nat) (i : Inclusion), draft.query.inclusions[n]? = some i →
        Dict.find? d'.relations i.relationship = i.cardinality.neighbours (handles n)) ∧
      ∀ name ∉ draft.query.inclusions.map (·.relationship),
        Dict.find? d'.relations name = Dict.find? d.relations name := by
  obtain ⟨members, -, -, -, rfl, -⟩ := Entity.read_eq_ok_iff.mp hread
  obtain ⟨merged, hrow, hanswers, hothers⟩ :=
    Query.find?_includedRow hd.inclusions_nodup members items
  obtain ⟨hbefore, hbefore'⟩ := hm.relations_of_read hread
  have hfound : ∀ (n : Nat) (i : Inclusion), draft.query.inclusions[n]? = some i →
      i.relationship ∈ m.topology.relationNames e.name ∧
        e.readRelation m.topology merged i.relationship =
          .ok (i.cardinality.neighbours (handles n)) :=
    fun n i hi => hd.readRelation_included hentity hi (hanswers n i hi) (htexts n i hi)
  have hincluded : ∀ name ∈ draft.query.inclusions.map (·.relationship),
      name ∈ m.topology.relationNames e.name ∧
        ∃ neighbours, e.readRelation m.topology merged name = .ok neighbours := by
    intro name hname
    obtain ⟨i, hi, rfl⟩ := List.mem_map.mp hname
    obtain ⟨n, hn⟩ := List.getElem?_of_mem hi
    exact ⟨(hfound n i hn).1, _, (hfound n i hn).2⟩
  have hother : ∀ name ∉ draft.query.inclusions.map (·.relationship),
      name ∈ m.topology.relationNames e.name →
      e.readRelation m.topology merged name = .ok (Dict.find? d.relations name) := by
    intro name hname hrelation
    rw [Entity.readRelation_congr (hothers name hname)]
    exact hbefore name hrelation
  have hall : ∀ name ∈ m.topology.relationNames e.name,
      ∃ neighbours, e.readRelation m.topology merged name = .ok neighbours := by
    intro name hrelation
    by_cases hname : name ∈ draft.query.inclusions.map (·.relationship)
    · exact (hincluded name hname).2
    · exact ⟨_, hother name hname hrelation⟩
  obtain ⟨d', hread', hentity', hkey, hattributes⟩ := hm.read_related he hread
    (fun name hname => hothers name fun hmem => hname (hincluded name hmem).1) hall
  obtain ⟨hafter, hafter'⟩ := hm.relations_of_read hread'
  refine ⟨d', hrow ▸ hread', hentity', hkey, hattributes, ?_, ?_⟩
  · intro n i hi
    obtain ⟨hrelation, hneighbours⟩ := hfound n i hi
    exact Except.ok.inj ((hafter _ hrelation).symm.trans hneighbours)
  · intro name hname
    by_cases hrelation : name ∈ m.topology.relationNames e.name
    · exact Except.ok.inj ((hafter name hrelation).symm.trans (hother name hname hrelation))
    · rw [hafter' name hrelation, hbefore' name hrelation]

end

/-- A query for documents with inclusions returns rows of its root documents. From such a row the key
and the attributes of the root document are read, the neighbours that were found for the included
relations, and those of the root document for the others. -/
theorem Mapper.Resolved.include_read {m : Mapper} (hm : m.Resolved) {entity : String}
    {ops : List Operation} {q : Query} (hq : m.query entity ops = .ok q)
    (hdocuments : q.returnsDocuments = true) (hincluded : q.inclusions ≠ []) :
    (∀ st (db : Database Json) parameters roots, m.statement q = .ok st → db.IsJson →
      ∀ row ∈ st.rowsOf db parameters roots, ∃ root ∈ roots, ∃ items,
        row = q.includedRow root items ∧ ∀ (n : Nat) (i : Inclusion), q.inclusions[n]? = some i →
          ∃ hop, m.topology.hop entity i.relationship = .ok hop ∧
            items n = db.handles n hop.edges root) ∧
    ∀ stored d (items : Nat → List Json) (handles : Nat → List Handle),
      m.readAll entity [stored] = .ok [d] →
      (∀ (n : Nat) (i : Inclusion), q.inclusions[n]? = some i →
        Handle.Texts (items n) (handles n)) →
      ∃ d', m.readAll entity [q.includedRow stored items] = .ok [d'] ∧
        d'.entity = d.entity ∧ d'.key = d.key ∧ d'.attributes = d.attributes ∧
        (∀ (n : Nat) (i : Inclusion), q.inclusions[n]? = some i →
          Dict.find? d'.relations i.relationship = i.cardinality.neighbours (handles n)) ∧
        ∀ name ∉ q.inclusions.map (·.relationship),
          Dict.find? d'.relations name = Dict.find? d.relations name := by
  obtain ⟨draft, hbuilt, hentity, rfl⟩ := query_built hq
  constructor
  · intro st db parameters roots hst hdb row hrow
    obtain ⟨root, hroot, items, heq, hitems⟩ := rows_included hst hdocuments hincluded hdb hrow
    rw [← hentity]
    exact ⟨root, hroot, items, heq, hitems⟩
  · intro stored d items handles hread htexts
    obtain ⟨e, he, hread⟩ := readAll_singleton.mp hread
    obtain ⟨hmem, hname⟩ := hm.wellFormed.lookup_eq_ok he
    obtain ⟨d', hread', hsame⟩ :=
      hm.read_included hbuilt hmem (hentity.trans hname.symm) hread htexts
    exact ⟨d', readAll_singleton.mpr ⟨e, he, hread'⟩, hsame⟩

/-- The owner that is found for an account is read with it, and the holders that it has stored stay. -/
theorem Mapper.include_read_owner :
    let stored : Json := .object [("_key", .string "1"), ("balance", .ofInt64 20),
      ("holders", .ofStrings ["people/1", "people/2"]), ("owner", .string "people/3")]
    ∃ q d d', Bank.mapper.query "Account" [.include "owner"] = .ok q ∧
      q.returnsDocuments = true ∧ q.inclusions ≠ [] ∧
      Bank.mapper.readAll "Account" [stored] = .ok [d] ∧
      Bank.mapper.readAll "Account" [q.includedRow stored fun _ => [.string "people/1"]] = .ok [d'] ∧
      d'.key = d.key ∧ d'.attributes = d.attributes ∧
      Dict.find? d'.relations "owner" = some (.one (.unread ⟨"people", "1"⟩)) ∧
      Dict.find? d'.relations "holders" = Dict.find? d.relations "holders" := by
  intro stored
  have hrun : (do
      let q ← Bank.mapper.query "Account" [.include "owner"]
      let ds ← Bank.mapper.readAll "Account" [stored]
      return (q.returnsDocuments, q.inclusions.map fun i : Inclusion =>
        (i.relationship, i.cardinality), ds.length)).toOption =
      some (true, [("owner", Cardinality.one)], 1) := by decide +kernel
  obtain ⟨q, hq, hrun⟩ := bind_eq_ok.mp (eq_ok_of_toOption hrun)
  obtain ⟨ds, hds, hrun⟩ := bind_eq_ok.mp hrun
  simp only [pure_eq_ok, Prod.mk.injEq] at hrun
  obtain ⟨hdocuments, hinclusions, hlength⟩ := hrun
  obtain ⟨d, rfl⟩ := List.length_eq_one_iff.mp hlength
  have hne : q.inclusions ≠ [] := by
    rintro hnil
    simp [hnil] at hinclusions
  obtain ⟨-, hreads⟩ := Bank.mapper_resolved.include_read hq hdocuments hne
  obtain ⟨i, hi, howner⟩ := List.map_eq_singleton_iff.mp hinclusions
  obtain ⟨hname, hcardinality⟩ := Prod.mk.inj howner
  obtain ⟨d', hread', -, hkey, hattributes, hfound, hothers⟩ :=
    hreads stored d (fun _ => [.string "people/1"]) (fun _ => [⟨"people", "1"⟩]) hds
      fun _ _ _ => .cons (by decide +kernel) .nil
  refine ⟨q, d, d', hq, hdocuments, hne, hds, hread', hkey, hattributes, ?_, ?_⟩
  · rw [← hname, hfound 0 i (by simp [hi]), hcardinality]
    rfl
  · refine hothers "holders" ?_
    rw [hi, List.map_singleton, hname]
    decide

end GraphMapper
