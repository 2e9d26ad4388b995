import GraphMapper.Proofs.Mutation.Defined
import GraphMapper.Proofs.Relation.Names
import GraphMapper.Proofs.Transport
import Mathlib.Data.Finset.Basic

/-!
# Removing documents

A removal takes the records of a document away before the document itself. In a storage whose records
respect the links no record is left at the document, no other record goes, and as long as one statement
is missing the document is still there (`Mapper.Resolved.remove_removes`).

A document can only stand at an end of a record where the link has its collection: the handles of
documents in different collections are never the same text, because no collection name has a slash in
it (`Handle.collection_eq_of_text_eq`). Those are the ends that the two sweeps go through.
-/

namespace GraphMapper

open Outcome Aql

/-! ## Storages -/

/-- The documents of a database, by their handles, and its edge records. -/
structure Storage where
  documents : Finset Handle
  edges : EdgeStore

/-- The documents after a statement. -/
def Statement.runDocuments (st : Statement) (documents : Finset Handle) : Finset Handle :=
  match st.command with
  | .insertDocument stored collection =>
    match ((Dict.find? st.bindVars stored.name).bind (·.get? "_key")).bind Json.toString? with
    | some key => insert ⟨collection, key⟩ documents
    | none => documents
  | .removeDocument key collection =>
    match st.text? key with
    | some key => documents.erase ⟨collection, key⟩
    | none => documents
  | _ => documents

namespace Storage

/-- The storage after statements that are run in order. -/
def run (statements : List Statement) (s : Storage) : Storage :=
  statements.foldl (fun s st => ⟨st.runDocuments s.documents, st.runEdges s.edges⟩) s

@[simp] theorem run_nil (s : Storage) : s.run [] = s := rfl

theorem run_cons (st : Statement) (rest : List Statement) (s : Storage) :
    s.run (st :: rest) = run rest ⟨st.runDocuments s.documents, st.runEdges s.edges⟩ := rfl

theorem run_append (first rest : List Statement) (s : Storage) :
    s.run (first ++ rest) = (s.run first).run rest :=
  List.foldl_append

theorem edges_run (statements : List Statement) (s : Storage) :
    (s.run statements).edges = runEdges statements s.edges := by
  induction statements generalizing s with
  | nil => rfl
  | cons st rest ih => rw [run_cons, ih, runEdges_cons]

/-- Statements on edges leave the documents alone. -/
theorem documents_run {statements : List Statement}
    (h : ∀ st ∈ statements, st.command.edgeEnds?.isSome = true) (s : Storage) :
    (s.run statements).documents = s.documents := by
  induction statements generalizing s with
  | nil => rfl
  | cons st rest ih =>
    obtain ⟨hfirst, hrest⟩ := List.forall_mem_cons.mp h
    have hsame : st.runDocuments s.documents = s.documents := by
      unfold Statement.runDocuments
      cases hcommand : st.command with
      | insertEdge source target collection => rfl
      | removeEdges collection ends => rfl
      | _ => simp [hcommand, Command.edgeEnds?] at hfirst
    rw [run_cons, ih hrest, hsame]

end Storage

/-! ## Documents at the ends of records -/

/-- Handles with the same text are in the same collection if neither collection has a slash in it. -/
theorem Handle.collection_eq_of_text_eq {x y : Handle}
    (hx : Text.isIdentifier x.collection = true) (hy : Text.isIdentifier y.collection = true)
    (h : x.text = y.text) : x.collection = y.collection := by
  have hfront : ∀ z : Handle, Text.isIdentifier z.collection = true →
      z.text.toList.takeWhile (· != '/') = z.collection.toList := by
    intro z hz
    have hnoSlash : ∀ c ∈ z.collection.toList, (c != '/') = true := by
      intro c hc
      have hname := Text.isNameChar_of_isIdentifier hz c hc
      rw [bne_iff_ne]
      rintro rfl
      exact absurd hname (by decide)
    have htext : z.text.toList = z.collection.toList ++ '/' :: z.key.toList := by
      simp [Handle.text]
    rw [htext, List.takeWhile_append_of_pos hnoSlash]
    simp
  exact String.toList_inj.mp ((hfront x hx).symm.trans (h ▸ hfront y hy))

/-- A document is at the ends of records where the link names its entity. -/
theorem Mapper.Resolved.entityAt_eq {m : Mapper} (hm : m.Resolved) {store : EdgeStore}
    (hstore : m.topology.RespectedBy store) {l : Link} (hl : l ∈ m.topology.links) {r : EdgeRecord}
    (hr : r ∈ store) (hcollection : r.collection = l.collection) {e : Entity}
    (he : e ∈ m.schema.all) {stop : EdgeEnd} {key : String}
    (hend : stop.of r = Handle.text ⟨e.collectionName, key⟩) : l.entityAt stop = e.name := by
  obtain ⟨ds, hds, ht⟩ := hm.topology
  obtain ⟨key', hkey'⟩ := hstore l hl r hr hcollection stop
  obtain ⟨e', he', -, hcollection'⟩ := ht.exists_entityAt hm.wellFormed hds hl stop
  have hidentifier : ∀ e ∈ m.schema.all, Text.isIdentifier e.collectionName = true := fun _ =>
    hm.wellFormed.isIdentifier_collectionName
  have hsame := Handle.collection_eq_of_text_eq
    (x := ⟨l.collectionAt stop, key'⟩) (y := ⟨e.collectionName, key⟩)
    (hcollection' ▸ hidentifier e' he') (hidentifier e he) (hkey'.symm.trans hend)
  exact (ht.collectionAt_eq_iff hm.wellFormed hds hl he).mp hsame

/-! ## Sweeps of a removal -/

namespace Mapper

theorem mem_detach {handle : Handle} {stop : EdgeEnd} {l : Link} {r : EdgeRecord}
    {store : EdgeStore} : r ∈ (detach handle stop l).runEdges store ↔
      r ∈ store ∧ ¬ (r.collection = l.collection ∧ stop.of r = handle.text) := by
  let ends := [(stop, Slot.named "handle", handle)]
  have hnodup : (ends.map fun e => e.2.1.name).Nodup := List.nodup_singleton _
  have hselects : (detach handle stop l).selects [(stop, .named "handle")] r = true ↔
      stop.of r = handle.text :=
    (Statement.selects_closed hnodup r).trans List.forall_mem_singleton
  rw [Statement.mem_runEdges_removeEdges rfl, hselects]

/-- A sweep takes the records of its links that have the document at one end. -/
theorem mem_detachAll {handle : Handle} {stop : EdgeEnd} {links : List Link} {r : EdgeRecord}
    {store : EdgeStore} : r ∈ runEdges (links.map (detach handle stop)) store ↔
      r ∈ store ∧ ∀ l ∈ links, r.collection = l.collection → stop.of r ≠ handle.text := by
  induction links generalizing store with
  | nil => simp
  | cons l rest ih =>
    rw [List.map_cons, runEdges_cons, ih, mem_detach, List.forall_mem_cons, and_assoc, not_and]

/-- The statements of a removal before the last one. -/
def sweeps (m : Mapper) (e : Entity) (handle : Handle) : List Statement :=
  (m.topology.outgoing e.name).map (detach handle .source) ++
    (m.topology.incoming e.name).map (detach handle .target)

/-- The last statement of a removal. -/
def removed (e : Entity) (key : String) : Statement :=
  Statement.closed (.removeDocument (.named "key") e.collectionName) [(.named "key", .string key)]

theorem remove_eq {m : Mapper} {entity key : String} {e : Entity}
    (he : m.schema.lookup entity = .ok e) :
    m.remove entity key = .ok (m.sweeps e ⟨e.collectionName, key⟩ ++ [removed e key]) :=
  bind_eq_ok.mpr ⟨e, he, rfl⟩

theorem exists_detach {m : Mapper} {e : Entity} {handle : Handle} {st : Statement}
    (hst : st ∈ m.sweeps e handle) : ∃ stop l, st = detach handle stop l := by
  rcases List.mem_append.mp hst with hst | hst
  · obtain ⟨l, -, rfl⟩ := List.mem_map.mp hst
    exact ⟨.source, l, rfl⟩
  · obtain ⟨l, -, rfl⟩ := List.mem_map.mp hst
    exact ⟨.target, l, rfl⟩

/-- The documents stay through the sweeps. -/
theorem documents_sweeps {m : Mapper} {e : Entity} {handle : Handle} {done : List Statement}
    (hdone : done <+: m.sweeps e handle) (s : Storage) : (s.run done).documents = s.documents := by
  refine Storage.documents_run (fun st hst => ?_) s
  obtain ⟨stop, l, rfl⟩ := exists_detach (hdone.subset hst)
  rfl

/-- The sweeps together take the records of all links that have the document at an end, and no
others. -/
theorem Resolved.mem_sweeps {m : Mapper} (hm : m.Resolved) {e : Entity} (he : e ∈ m.schema.all)
    {key : String} {store : EdgeStore} (hstore : m.topology.RespectedBy store) {r : EdgeRecord} :
    r ∈ runEdges (m.sweeps e ⟨e.collectionName, key⟩) store ↔
      r ∈ store ∧ ∀ l ∈ m.topology.links, r.collection = l.collection →
        ∀ stop : EdgeEnd, stop.of r ≠ Handle.text ⟨e.collectionName, key⟩ := by
  rw [sweeps, runEdges_append, mem_detachAll, mem_detachAll, and_assoc]
  refine and_congr_right fun hr => ⟨?_, ?_⟩
  · rintro ⟨hleaving, hentering⟩ l hl hcollection stop hend
    have hname := hm.entityAt_eq hstore hl hr hcollection he hend
    cases stop with
    | source =>
      have hout : l ∈ m.topology.outgoing e.name := List.mem_filter.mpr ⟨hl, beq_iff_eq.mpr hname⟩
      exact hleaving l hout hcollection hend
    | target =>
      have hin : l ∈ m.topology.incoming e.name := List.mem_filter.mpr ⟨hl, beq_iff_eq.mpr hname⟩
      exact hentering l hin hcollection hend
  · intro h
    exact ⟨fun l hl hcollection => h l (List.mem_filter.mp hl).1 hcollection .source,
      fun l hl hcollection => h l (List.mem_filter.mp hl).1 hcollection .target⟩

end Mapper

/-! ## Removals -/

/-- What running the statements of a removal does to a storage. -/
structure Mapper.Removes (m : Mapper) (handle : Handle) (statements : List Statement)
    (s : Storage) : Prop where
  /-- Of the records, those of links go that have the document at an end, and no others. -/
  edges : ∀ r, r ∈ (s.run statements).edges ↔ r ∈ s.edges ∧
    ∀ l ∈ m.topology.links, r.collection = l.collection →
      ∀ stop : EdgeEnd, stop.of r ≠ handle.text
  /-- The document goes, and no other. -/
  documents : (s.run statements).documents = s.documents.erase handle
  /-- As long as a statement is missing, every document is there. -/
  stopped : ∀ done, done <+: statements → done ≠ statements →
    (s.run done).documents = s.documents
  /-- Wherever the run stops, no record has lost a document at an end. -/
  attached : ∀ done, done <+: statements → ∀ l ∈ m.topology.links, ∀ r ∈ (s.run done).edges,
    r.collection = l.collection → ∀ stop : EdgeEnd, ∀ x ∈ s.documents, stop.of r = x.text →
      x ∈ (s.run done).documents
  /-- A run that fails has stopped before the last statement took effect. -/
  failed : ∀ (t : Transport) error executed, t.executeAll [] statements = (.error error, executed) →
    ∃ done last, executed = done ++ [last] ∧ done <+: statements ∧ done ≠ statements

/-- Every entity has a removal for every key, and it removes the document from each storage whose
records respect the links. -/
theorem Mapper.Resolved.remove_removes {m : Mapper} (hm : m.Resolved) {entity : String} {e : Entity}
    (he : m.schema.lookup entity = .ok e) (key : String) {s : Storage}
    (hs : m.topology.RespectedBy s.edges) :
    ∃ statements, m.remove entity key = .ok statements ∧
      m.Removes ⟨e.collectionName, key⟩ statements s := by
  let handle : Handle := ⟨e.collectionName, key⟩
  refine ⟨m.sweeps e handle ++ [removed e key], remove_eq he, ?_⟩
  have hedges : ∀ r, r ∈ (s.run (m.sweeps e handle ++ [removed e key])).edges ↔ r ∈ s.edges ∧
      ∀ l ∈ m.topology.links, r.collection = l.collection →
        ∀ stop : EdgeEnd, stop.of r ≠ handle.text := by
    intro r
    rw [Storage.edges_run, runEdges_append]
    exact hm.mem_sweeps (hm.wellFormed.lookup_eq_ok he).1 hs
  have hdocuments : (s.run (m.sweeps e handle ++ [removed e key])).documents =
      s.documents.erase handle := by
    rw [Storage.run_append, ← documents_sweeps (List.prefix_refl _) s]
    rfl
  have hstopped : ∀ done, done <+: m.sweeps e handle ++ [removed e key] →
      done ≠ m.sweeps e handle ++ [removed e key] → (s.run done).documents = s.documents :=
    fun done hdone hne => documents_sweeps ((List.prefix_concat_iff.mp hdone).resolve_left hne) s
  constructor
  case edges => exact hedges
  case documents => exact hdocuments
  case stopped => exact hstopped
  case attached =>
    intro done hdone l hl r hr hcollection stop x hx hend
    by_cases hall : done = m.sweeps e handle ++ [removed e key]
    · subst hall
      rw [hdocuments, Finset.mem_erase]
      refine ⟨?_, hx⟩
      rintro rfl
      exact ((hedges r).mp hr).2 l hl hcollection stop hend
    · rw [hstopped done hdone hall]
      exact hx
  case failed =>
    intro t error executed hrun
    obtain ⟨done, last, rest, heq, rfl⟩ := Transport.executeAll_eq_error hrun
    refine ⟨done, last, rfl, ⟨last :: rest, heq.symm⟩, ?_⟩
    rintro rfl
    simpa using congrArg List.length heq

/-- A person is removed who has been linked to an account. -/
theorem Mapper.remove_removes_person :
    let person : Handle := ⟨"people", "1"⟩
    let account : Handle := ⟨"accounts", "1"⟩
    let record : EdgeRecord := ⟨"holds", "people/1", "accounts/1"⟩
    ∃ e linking, Bank.mapper.schema.lookup "Person" = .ok e ∧
      Bank.mapper.link person "accounts" account = .ok linking ∧
      record ∈ runEdges linking ∅ ∧
      Bank.mapper.topology.RespectedBy (runEdges linking ∅) ∧
      ∃ statements, Bank.mapper.remove "Person" "1" = .ok statements ∧
        Bank.mapper.Removes ⟨e.collectionName, "1"⟩ statements
          ⟨{person, account}, runEdges linking ∅⟩ := by
  intro person account record
  have hrun : (do
      let _ ← Bank.mapper.schema.lookup "Person"
      let linking ← Bank.mapper.link person "accounts" account
      return decide (record ∈ runEdges linking ∅)).toOption = some true := by decide +kernel
  obtain ⟨e, he, hrun⟩ := bind_eq_ok.mp (eq_ok_of_toOption hrun)
  obtain ⟨linking, hlinking, hrun⟩ := bind_eq_ok.mp hrun
  have hmutation : (Mutation.edges (.link person "accounts" account)).statements Bank.mapper =
      .ok linking := hlinking
  have hreaches : Bank.mapper.Reaches (runEdges linking ∅) :=
    .run .empty hmutation (List.prefix_refl linking)
  have hrespected := Bank.mapper_resolved.respectedBy hreaches
  exact ⟨e, linking, he, hlinking, of_decide_eq_true (pure_eq_ok.mp hrun), hrespected,
    Bank.mapper_resolved.remove_removes he "1" hrespected⟩

end GraphMapper
