import GraphMapper.Document.Fetching
import GraphMapper.Proofs.Dict
import GraphMapper.Proofs.Mapper
import GraphMapper.Proofs.Transport

/-!
# Fetching neighbours call by call

A call gets through the neighbours under a relation from the left: what has been fetched is kept, and
for a handle its document is asked for by one statement (`Mapper.Fetched`). Where an answer is refused
(`Mapper.Refuses`) the call stops, and this neighbour and those after it stay as they are, so that the
next call goes on from there (`FetchCall.run_resumes`).

Over any number of calls a document only grows (`Document.Grows`): a handle may give way to a document,
and nothing else ever changes.
-/

namespace GraphMapper

open Outcome

/-! ## Asking for a document -/

/-- The handle of a neighbour that has not been fetched. -/
def Neighbour.handle? {α : Type} : Neighbour α → Option Handle
  | unread handle => some handle
  | fetched _ => none

/-- The handles of the neighbours that have not been fetched, in order. -/
def Neighbour.waiting {α : Type} (neighbours : List (Neighbour α)) : List Handle :=
  neighbours.filterMap handle?

/-- Nobody waits exactly if all neighbours have been fetched. -/
theorem Neighbour.waiting_eq_nil_iff {α : Type} {neighbours : List (Neighbour α)} :
    waiting neighbours = [] ↔ ∀ neighbour ∈ neighbours, ∃ a, neighbour = .fetched a := by
  rw [waiting, List.filterMap_eq_nil_iff]
  refine forall₂_congr fun neighbour _ => ?_
  cases neighbour with
  | unread handle => simp [handle?]
  | fetched a => simp [handle?]

/-- The statement that asks for the document of a handle. -/
def Handle.request (handle : Handle) : Statement :=
  Statement.closed (.readDocument (.literal 0)) [(.literal 0, handle.toJson)]

theorem Handle.query_request (handle : Handle) :
    handle.request.query = "RETURN DOCUMENT(@lit0)" := by
  have htext : (Aql.Command.readDocument (.literal 0)).text = "RETURN DOCUMENT(@lit0)" := by
    decide +kernel
  exact htext

theorem Handle.bindVars_request (handle : Handle) :
    handle.request.bindVars = [("lit0", .string handle.text)] := by
  have hname : (Aql.Slot.literal 0).name = "lit0" := by decide +kernel
  change Dict.ofEntries [((Aql.Slot.literal 0).name, handle.toJson)] = _
  rw [hname]
  rfl

namespace Mapper

variable (m : Mapper) (t : Transport) (executed : List Statement) (handle : Handle)

/-- The collection of the handle belongs to an entity. -/
def Knows : Prop := ∃ e, m.schema.ofCollection? handle.collection = some e

/-- The document of a handle is asked for, and the first row that comes is read as the document by the
entity that it names. -/
def Answers (document : Document) : Prop :=
  m.Knows handle ∧ ∃ row rest, t.answer executed handle.request = .ok (row :: rest) ∧
    row.isNull = false ∧ m.readByOrigin row = .ok document

/-- Why there is no document for a handle, and what has been handed over until then. -/
inductive Refuses : Error → List Statement → Prop
  /-- Nobody has the collection of the handle, and nothing is asked. -/
  | stranger (h : m.schema.ofCollection? handle.collection = none) :
      Refuses (.unknownEntity handle.collection) []
  | storage {e : Error} (h : m.Knows handle) (hanswer : t.answer executed handle.request = .error e) :
      Refuses e [handle.request]
  | absent {rows : List Json} (h : m.Knows handle)
      (hanswer : t.answer executed handle.request = .ok rows)
      (hnone : ∀ row ∈ rows.head?, row.isNull = true) : Refuses .notFound [handle.request]
  | unreadable {row : Json} {rest : List Json} {e : Error} (h : m.Knows handle)
      (hanswer : t.answer executed handle.request = .ok (row :: rest)) (hrow : row.isNull = false)
      (hread : m.readByOrigin row = .error e) : Refuses e [handle.request]

variable {m t}

/-- Fetching one neighbour: its document comes, or it is refused. -/
theorem fetchNeighbour_unread :
    (∃ document, m.Answers t executed handle document ∧
      m.fetchNeighbour t executed (.unread handle) =
        (.ok (.fetched document), executed ++ [handle.request])) ∨
    ∃ e sent, m.Refuses t executed handle e sent ∧
      m.fetchNeighbour t executed (.unread handle) = (.error e, executed ++ sent) := by
  cases howner : m.schema.ofCollection? handle.collection with
  | none =>
    refine Or.inr ⟨_, _, .stranger howner, ?_⟩
    have hread : m.read handle = .error (.unknownEntity handle.collection) := by
      rw [Mapper.read, Schema.ofCollection, howner]
      rfl
    simp [fetchNeighbour, hread]
  | some owner =>
    have hknows : m.Knows handle := ⟨owner, howner⟩
    have hread : m.read handle = .ok handle.request := by
      rw [Mapper.read, Schema.ofCollection, howner]
      rfl
    have hrun : m.fetchNeighbour t executed (.unread handle) =
        ((t.answer executed handle.request >>= m.firstDocument).map .fetched,
          executed ++ [handle.request]) := by
      simp only [fetchNeighbour, hread, Transport.execute]
      cases t.answer executed handle.request <;> rfl
    rw [hrun]
    cases hanswer : t.answer executed handle.request with
    | error e => exact Or.inr ⟨e, _, .storage hknows hanswer, rfl⟩
    | ok rows =>
      change (∃ document, _ ∧ ((m.firstDocument rows).map Neighbour.fetched, _) = _) ∨
        ∃ e sent, _ ∧ ((m.firstDocument rows).map Neighbour.fetched, _) = _
      cases rows with
      | nil => exact Or.inr ⟨_, _, .absent hknows hanswer (by simp), rfl⟩
      | cons row rest =>
        cases hrow : row.isNull with
        | true =>
          refine Or.inr ⟨_, _, .absent hknows hanswer (by simpa using hrow), ?_⟩
          rw [firstDocument, if_pos hrow]
          rfl
        | false =>
          rw [firstDocument, if_neg (by simp [hrow])]
          cases hdocument : m.readByOrigin row with
          | error e => exact Or.inr ⟨e, _, .unreadable hknows hanswer hrow hdocument, rfl⟩
          | ok document =>
            exact Or.inl ⟨document, ⟨hknows, row, rest, hanswer, hrow, hdocument⟩, rfl⟩

/-! ## One neighbour after the other -/

variable (m t)

/-- The documents of neighbours that are got through in order: one that has been fetched is kept, and
one that waits is asked for after those before it. -/
inductive Fetched : List Statement → List (Neighbour Document) → List Document → Prop
  | nil {executed : List Statement} : Fetched executed [] []
  | kept {executed : List Statement} {document : Document} {rest : List (Neighbour Document)}
      {documents : List Document} (hrest : Fetched executed rest documents) :
      Fetched executed (.fetched document :: rest) (document :: documents)
  | anew {executed : List Statement} {handle : Handle} {document : Document}
      {rest : List (Neighbour Document)} {documents : List Document}
      (hfirst : m.Answers t executed handle document)
      (hrest : Fetched (executed ++ [handle.request]) rest documents) :
      Fetched executed (.unread handle :: rest) (document :: documents)

variable {m t}

/-- A call gets through all neighbours, or through those before one that is refused. -/
theorem fetchEach_stops (executed : List Statement) (neighbours : List (Neighbour Document)) :
    ∃ done left documents, neighbours = done ++ left ∧ m.Fetched t executed done documents ∧
      ((left = [] ∧ m.fetchEach t executed neighbours = (documents.map .fetched, none,
          executed ++ (Neighbour.waiting done).map Handle.request)) ∨
        ∃ handle later e sent, left = .unread handle :: later ∧
          m.Refuses t (executed ++ (Neighbour.waiting done).map Handle.request) handle e sent ∧
          m.fetchEach t executed neighbours = (documents.map .fetched ++ left, some e,
            executed ++ (Neighbour.waiting done).map Handle.request ++ sent)) := by
  induction neighbours generalizing executed with
  | nil =>
    refine ⟨[], [], [], rfl, .nil, Or.inl ⟨rfl, ?_⟩⟩
    simp [fetchEach, Neighbour.waiting]
  | cons neighbour rest ih =>
    cases neighbour with
    | fetched document =>
      obtain ⟨done, left, documents, rfl, hdone, hrun⟩ := ih executed
      refine ⟨.fetched document :: done, left, document :: documents, rfl, .kept hdone, ?_⟩
      have hwaiting : Neighbour.waiting (.fetched document :: done) = Neighbour.waiting done := rfl
      rw [hwaiting]
      rcases hrun with ⟨rfl, hrun⟩ | ⟨handle, later, e, sent, rfl, hrefused, hrun⟩
      · refine Or.inl ⟨rfl, ?_⟩
        simp only [fetchEach, fetchNeighbour, hrun]
        rfl
      · refine Or.inr ⟨handle, later, e, sent, rfl, hrefused, ?_⟩
        simp only [fetchEach, fetchNeighbour, hrun]
        rfl
    | unread handle =>
      rcases fetchNeighbour_unread (m := m) (t := t) executed handle with
        ⟨document, hanswers, hfirst⟩ | ⟨e, sent, hrefused, hfirst⟩
      · obtain ⟨done, left, documents, rfl, hdone, hrun⟩ := ih (executed ++ [handle.request])
        refine ⟨.unread handle :: done, left, document :: documents, rfl, .anew hanswers hdone, ?_⟩
        have hwaiting : executed ++ [handle.request] ++
            (Neighbour.waiting done).map Handle.request =
            executed ++ (Neighbour.waiting (.unread handle :: done)).map Handle.request := by
          simp [Neighbour.waiting, Neighbour.handle?]
        rw [hwaiting] at hrun
        rcases hrun with ⟨rfl, hrun⟩ | ⟨other, later, e, sent, rfl, hrefused, hrun⟩
        · refine Or.inl ⟨rfl, ?_⟩
          simp only [fetchEach, hfirst, hrun]
          rfl
        · refine Or.inr ⟨other, later, e, sent, rfl, hrefused, ?_⟩
          simp only [fetchEach, hfirst, hrun]
          rfl
      · refine ⟨[], .unread handle :: rest, [], rfl, .nil,
          Or.inr ⟨handle, rest, e, sent, rfl, ?_, ?_⟩⟩
        · simpa [Neighbour.waiting] using hrefused
        · simp [fetchEach, hfirst, Neighbour.waiting]

/-- All neighbours under a relation are got through like their list. -/
theorem fetchNeighbours_toList (executed : List Statement) (neighbours : Neighbours Document) :
    ((m.fetchNeighbours t executed neighbours).1.toList,
      (m.fetchNeighbours t executed neighbours).2) =
      m.fetchEach t executed neighbours.toList := by
  cases neighbours with
  | one neighbour =>
    simp only [fetchNeighbours, Neighbours.toList, fetchEach]
    rcases m.fetchNeighbour t executed neighbour with ⟨_ | _, _⟩ <;> rfl
  | many neighbours => rfl

end Mapper

/-! ## Growth -/

/-- A neighbour stays as it is, or its document takes the place of the handle. -/
inductive Neighbour.Grows : Neighbour Document → Neighbour Document → Prop
  | same (neighbour : Neighbour Document) : Grows neighbour neighbour
  | fetched (handle : Handle) (document : Document) : Grows (.unread handle) (.fetched document)

/-- Once a document is there, it never changes. -/
theorem Neighbour.Grows.eq_of_fetched {document : Document} {neighbour : Neighbour Document}
    (h : Grows (.fetched document) neighbour) : neighbour = .fetched document := by
  cases h
  rfl

theorem Neighbour.Grows.trans {a b c : Neighbour Document} (h : a.Grows b) (h' : b.Grows c) :
    a.Grows c := by
  cases h with
  | same => exact h'
  | fetched handle document => exact h'.eq_of_fetched ▸ .fetched handle document

/-- Whether the neighbours are listed. -/
def Neighbours.isMany {α : Type} : Neighbours α → Bool
  | one _ => false
  | many _ => true

/-- Each neighbour grows in its place. -/
structure Neighbours.Grows (before after : Neighbours Document) : Prop where
  isMany : after.isMany = before.isMany
  each : List.Forall₂ Neighbour.Grows before.toList after.toList

namespace Neighbours.Grows

theorem refl (neighbours : Neighbours Document) : neighbours.Grows neighbours :=
  ⟨rfl, List.forall₂_same.mpr fun neighbour _ => .same neighbour⟩

theorem trans {a b c : Neighbours Document} (h : a.Grows b) (h' : b.Grows c) : a.Grows c := by
  refine ⟨h'.isMany.trans h.isMany, ?_⟩
  obtain ⟨-, hfirst⟩ := h
  obtain ⟨-, hthen⟩ := h'
  generalize a.toList = as at hfirst ⊢
  generalize b.toList = bs at hfirst hthen
  generalize c.toList = cs at hthen ⊢
  induction hfirst generalizing cs with
  | nil => exact hthen
  | cons hone _ ih =>
    cases hthen with
    | cons hother hrest => exact .cons (hone.trans hother) (ih _ hrest)

end Neighbours.Grows

/-- The document keeps all that it has, and neighbours grow under the relations that it had. -/
structure Document.Grows (d d' : Document) : Prop where
  entity : d'.entity = d.entity
  key : d'.key = d.key
  attributes : d'.attributes = d.attributes
  relations : ∀ name, Option.Rel Neighbours.Grows (Dict.find? d.relations name)
    (Dict.find? d'.relations name)

namespace Document.Grows

theorem refl (d : Document) : d.Grows d := by
  refine ⟨rfl, rfl, rfl, fun name => ?_⟩
  cases Dict.find? d.relations name with
  | none => exact .none
  | some neighbours => exact .some (.refl neighbours)

theorem trans {a b c : Document} (h : a.Grows b) (h' : b.Grows c) : a.Grows c := by
  refine ⟨h'.entity.trans h.entity, h'.key.trans h.key, h'.attributes.trans h.attributes, ?_⟩
  intro name
  have hfirst := h.relations name
  have hthen := h'.relations name
  generalize Dict.find? a.relations name = first at hfirst ⊢
  generalize Dict.find? b.relations name = second at hfirst hthen
  generalize Dict.find? c.relations name = third at hthen ⊢
  cases hfirst with
  | none => exact hthen
  | some hone =>
    cases hthen with
    | some hother => exact .some (hone.trans hother)

/-- The neighbours under a relation grow while the others are left alone. -/
theorem insert {d : Document} {relation : String} {before after : Neighbours Document}
    (hbefore : Dict.find? d.relations relation = some before) (h : before.Grows after) :
    d.Grows { d with relations := Dict.insert d.relations relation after } := by
  refine ⟨rfl, rfl, rfl, fun name => ?_⟩
  rw [Dict.find?_insert]
  by_cases hname : relation = name
  · subst hname
    rw [if_pos rfl, hbefore]
    exact .some h
  · rw [if_neg hname]
    exact (refl d).relations name

/-- A relation that is held stays held. -/
theorem exists_neighbours {d d' : Document} (h : d.Grows d') {relation : String}
    {before : Neighbours Document} (hbefore : Dict.find? d.relations relation = some before) :
    ∃ after, Dict.find? d'.relations relation = some after ∧ before.Grows after := by
  have hrelation := h.relations relation
  rw [hbefore] at hrelation
  generalize Dict.find? d'.relations relation = found at hrelation
  cases hrelation with
  | some hgrows => exact ⟨_, rfl, hgrows⟩

end Document.Grows

namespace Mapper

variable {m : Mapper} {t : Transport}

theorem Fetched.grows {executed : List Statement} {done : List (Neighbour Document)}
    {documents : List Document} (h : m.Fetched t executed done documents) :
    List.Forall₂ Neighbour.Grows done (documents.map .fetched) := by
  induction h with
  | nil => exact .nil
  | kept _ ih => exact .cons (.same _) ih
  | anew _ _ ih => exact .cons (.fetched _ _) ih

/-- How a call gets on with the neighbours under a relation: it gets through those in `done`, and
leaves the others alone. -/
structure GetsThrough (m : Mapper) (t : Transport) (executed : List Statement)
    (before after : Neighbours Document) (done left : List (Neighbour Document))
    (documents : List Document) : Prop where
  isMany : after.isMany = before.isMany
  before : before.toList = done ++ left
  after : after.toList = documents.map .fetched ++ left
  fetched : m.Fetched t executed done documents

theorem GetsThrough.grows {executed : List Statement} {before after : Neighbours Document}
    {done left : List (Neighbour Document)} {documents : List Document}
    (h : m.GetsThrough t executed before after done left documents) : before.Grows after := by
  refine ⟨h.isMany, ?_⟩
  rw [h.before, h.after]
  exact List.rel_append h.fetched.grows (List.forall₂_same.mpr fun neighbour _ => .same neighbour)

/-- Those who wait after a call are among the neighbours that were left alone. -/
theorem GetsThrough.waiting_after {executed : List Statement} {before after : Neighbours Document}
    {done left : List (Neighbour Document)} {documents : List Document}
    (h : m.GetsThrough t executed before after done left documents) :
    Neighbour.waiting after.toList = Neighbour.waiting left := by
  have hnone : Neighbour.waiting (documents.map Neighbour.fetched) = [] := by
    rw [Neighbour.waiting_eq_nil_iff]
    intro neighbour hmem
    obtain ⟨document, -, rfl⟩ := List.mem_map.mp hmem
    exact ⟨document, rfl⟩
  rw [Neighbour.waiting] at hnone
  rw [h.after, Neighbour.waiting, List.filterMap_append, hnone, List.nil_append, Neighbour.waiting]

/-- All neighbours under a relation are got through, or those before one that is refused. -/
theorem fetchNeighbours_getsThrough (executed : List Statement) (before : Neighbours Document) :
    ∃ after done left documents, m.GetsThrough t executed before after done left documents ∧
      ((left = [] ∧ m.fetchNeighbours t executed before =
          (after, none, executed ++ (Neighbour.waiting done).map Handle.request)) ∨
        ∃ handle later e sent, left = .unread handle :: later ∧
          m.Refuses t (executed ++ (Neighbour.waiting done).map Handle.request) handle e sent ∧
          m.fetchNeighbours t executed before = (after, some e,
            executed ++ (Neighbour.waiting done).map Handle.request ++ sent)) := by
  have hlist := fetchNeighbours_toList (m := m) (t := t) executed before
  have hmany : (m.fetchNeighbours t executed before).1.isMany = before.isMany := by
    cases before with
    | one neighbour =>
      simp only [fetchNeighbours]
      rcases m.fetchNeighbour t executed neighbour with ⟨_ | _, _⟩ <;> rfl
    | many neighbours => rfl
  obtain ⟨done, left, documents, hbefore, hfetched, hrun⟩ :=
    fetchEach_stops (m := m) (t := t) executed before.toList
  rcases hcall : m.fetchNeighbours t executed before with ⟨after, failure, all⟩
  rw [hcall] at hlist hmany
  rcases hrun with ⟨rfl, hrun⟩ | ⟨handle, later, e, sent, rfl, hrefused, hrun⟩
  · rw [hrun] at hlist
    obtain ⟨hafter, hrest⟩ := Prod.mk.inj hlist
    obtain ⟨rfl, rfl⟩ := Prod.mk.inj hrest
    refine ⟨after, done, [], documents, ⟨hmany, hbefore, ?_, hfetched⟩, Or.inl ⟨rfl, rfl⟩⟩
    rw [List.append_nil]
    exact hafter
  · rw [hrun] at hlist
    obtain ⟨hafter, hrest⟩ := Prod.mk.inj hlist
    obtain ⟨rfl, rfl⟩ := Prod.mk.inj hrest
    exact ⟨after, done, _, documents, ⟨hmany, hbefore, hafter, hfetched⟩,
      Or.inr ⟨handle, later, e, sent, rfl, hrefused, rfl⟩⟩

/-- The relation of a call grows, and everything else is left alone. -/
theorem fetchRelation_getsThrough (executed : List Statement) {d : Document} {relation : String}
    {before : Neighbours Document} (hbefore : Dict.find? d.relations relation = some before) :
    ∃ after done left documents, m.GetsThrough t executed before after done left documents ∧
      (m.fetchRelation t executed d relation).document =
        { d with relations := Dict.insert d.relations relation after } ∧
      ((left = [] ∧ (m.fetchRelation t executed d relation).result = .ok after ∧
          (m.fetchRelation t executed d relation).executed =
            executed ++ (Neighbour.waiting done).map Handle.request) ∨
        ∃ handle later e sent, left = .unread handle :: later ∧
          m.Refuses t (executed ++ (Neighbour.waiting done).map Handle.request) handle e sent ∧
          (m.fetchRelation t executed d relation).result = .error e ∧
          (m.fetchRelation t executed d relation).executed =
            executed ++ (Neighbour.waiting done).map Handle.request ++ sent) := by
  obtain ⟨after, done, left, documents, hgets, hrun⟩ :=
    fetchNeighbours_getsThrough (m := m) (t := t) executed before
  refine ⟨after, done, left, documents, hgets, ?_⟩
  rcases hrun with ⟨rfl, hrun⟩ | ⟨handle, later, e, sent, rfl, hrefused, hrun⟩
  · have hcall : m.fetchRelation t executed d relation = ⟨.ok after,
        { d with relations := Dict.insert d.relations relation after },
        executed ++ (Neighbour.waiting done).map Handle.request⟩ := by
      simp only [fetchRelation, hbefore, hrun]
    rw [hcall]
    exact ⟨rfl, Or.inl ⟨rfl, rfl, rfl⟩⟩
  · have hcall : m.fetchRelation t executed d relation = ⟨.error e,
        { d with relations := Dict.insert d.relations relation after },
        executed ++ (Neighbour.waiting done).map Handle.request ++ sent⟩ := by
      simp only [fetchRelation, hbefore, hrun]
    rw [hcall]
    exact ⟨rfl, Or.inr ⟨handle, later, e, sent, rfl, hrefused, rfl, rfl⟩⟩

theorem fetchRelation_grows (executed : List Statement) (d : Document) (relation : String) :
    d.Grows (m.fetchRelation t executed d relation).document := by
  cases hbefore : Dict.find? d.relations relation with
  | none =>
    simp only [fetchRelation, hbefore]
    exact .refl d
  | some before =>
    obtain ⟨after, done, left, documents, hgets, hdocument, -⟩ :=
      fetchRelation_getsThrough (m := m) (t := t) executed hbefore
    rw [hdocument]
    exact .insert hbefore hgets.grows

end Mapper

/-! ## Calls -/

/-- A call for the neighbours of a document under a relation. -/
structure FetchCall where
  mapper : Mapper
  transport : Transport
  relation : String

namespace FetchCall

/-- What comes of a call, after the statements that have been handed over. -/
def run (call : FetchCall) (executed : List Statement) (d : Document) : Mapper.FetchOutcome :=
  call.mapper.fetchRelation call.transport executed d call.relation

/-- The document after calls, one after the other, and all statements that were handed over. A call
that fails leaves what it has fetched. -/
def runAll (executed : List Statement) (d : Document) :
    List FetchCall → Document × List Statement
  | [] => (d, executed)
  | call :: rest => runAll (call.run executed d).executed (call.run executed d).document rest

theorem runAll_grows (executed : List Statement) (d : Document) (calls : List FetchCall) :
    d.Grows (runAll executed d calls).1 := by
  induction calls generalizing executed d with
  | nil => exact .refl d
  | cons call rest ih =>
    have hfirst : d.Grows (call.run executed d).document := Mapper.fetchRelation_grows executed d _
    exact hfirst.trans (ih _ _)

/-- After any calls on a document that holds a relation, a call for it gets through the neighbours that
have been fetched without a statement, and through those that wait with the one statement that asks for
each of them. It ends well exactly if all neighbours have been fetched then; otherwise it stops at the
first that is refused, which is the first that waits for the next call. Nothing else changes. -/
theorem run_resumes (executed : List Statement) {d : Document} (earlier : List FetchCall)
    (call : FetchCall) {held : Neighbours Document}
    (hheld : Dict.find? d.relations call.relation = some held) :
    let now := (runAll executed d earlier).1
    let ran := (runAll executed d earlier).2
    let outcome := call.run ran now
    d.Grows now ∧ now.Grows outcome.document ∧
      (∀ other ≠ call.relation,
        Dict.find? outcome.document.relations other = Dict.find? now.relations other) ∧
      (∀ handle : Handle, handle.request.query = "RETURN DOCUMENT(@lit0)" ∧
        handle.request.bindVars = [("lit0", .string handle.text)]) ∧
      ∃ before after done left documents,
        Dict.find? now.relations call.relation = some before ∧ held.Grows before ∧
        Dict.find? outcome.document.relations call.relation = some after ∧
        call.mapper.GetsThrough call.transport ran before after done left documents ∧
        ((∃ found, outcome.result = .ok found) ↔
          ∀ neighbour ∈ after.toList, ∃ document, neighbour = .fetched document) ∧
        ((left = [] ∧ outcome.result = .ok after ∧
            outcome.executed = ran ++ (Neighbour.waiting done).map Handle.request) ∨
          ∃ handle later e sent, left = .unread handle :: later ∧
            Neighbour.waiting after.toList = handle :: Neighbour.waiting later ∧
            call.mapper.Refuses call.transport
              (ran ++ (Neighbour.waiting done).map Handle.request) handle e sent ∧
            outcome.result = .error e ∧
            outcome.executed = ran ++ (Neighbour.waiting done).map Handle.request ++ sent) := by
  intro now ran outcome
  have hgrows : d.Grows now := runAll_grows executed d earlier
  obtain ⟨before, hbefore, hgrown⟩ := hgrows.exists_neighbours hheld
  obtain ⟨after, done, left, documents, hgets, hdocument, hrun⟩ :=
    Mapper.fetchRelation_getsThrough (m := call.mapper) (t := call.transport) ran hbefore
  have hrelations : ∀ name, Dict.find? outcome.document.relations name =
      if call.relation = name then some after else Dict.find? now.relations name := by
    intro name
    rw [show outcome.document = _ from hdocument, Dict.find?_insert]
  refine ⟨hgrows, Mapper.fetchRelation_grows ran now _, ?_, ?_, before, after, done, left, documents,
    hbefore, hgrown, ?_, hgets, ?_, ?_⟩
  · intro other hother
    rw [hrelations, if_neg (Ne.symm hother)]
  · exact fun handle => ⟨handle.query_request, handle.bindVars_request⟩
  · rw [hrelations, if_pos rfl]
  · rw [← Neighbour.waiting_eq_nil_iff, hgets.waiting_after]
    rcases hrun with ⟨rfl, hresult, -⟩ | ⟨handle, later, e, sent, rfl, -, hresult, -⟩
    · exact iff_of_true ⟨after, hresult⟩ rfl
    · refine iff_of_false ?_ nofun
      rintro ⟨found, hfound⟩
      cases hresult.symm.trans hfound
  · refine hrun.imp_right ?_
    rintro ⟨handle, later, e, sent, rfl, hrefused, hresult, hexecuted⟩
    exact ⟨handle, later, e, sent, rfl, hgets.waiting_after, hrefused, hresult, hexecuted⟩

/-- Two accounts of a person are asked for by two calls. The transport fails at the second account, and
then has no document for it, so this one waits after both calls and is the only one that the second call
asks for. -/
theorem run_resumes_accounts :
    let held : Neighbours Document := .many [.unread ⟨"accounts", "1"⟩, .unread ⟨"accounts", "2"⟩]
    let d : Document := { entity := "Person", key := some "1", relations := [("accounts", held)] }
    let t : Transport := .scripted [
      .ok [.object [("_id", .string "accounts/1"), ("_key", .string "1"),
        ("balance", Json.ofNat 5)]], .error "down"]
    let call : FetchCall := ⟨Bank.mapper, t, "accounts"⟩
    let now := runAll [] d [call]
    let outcome := call.run now.2 now.1
    let asked (s : Statement) := (s.query, s.bindVars.map fun v => (v.1, v.2.toString?))
    let first := ("RETURN DOCUMENT(@lit0)", [("lit0", some "accounts/1")])
    let second := ("RETURN DOCUMENT(@lit0)", [("lit0", some "accounts/2")])
    Dict.find? d.relations call.relation = some held ∧
      now.2.map asked = [first, second] ∧ (call.run [] d).result = .error (.storage "down") ∧
      outcome.executed.map asked = [first, second, second] ∧ outcome.result = .error .notFound ∧
      ∃ before after, Dict.find? now.1.relations "accounts" = some before ∧
        Dict.find? outcome.document.relations "accounts" = some after ∧ held.Grows before ∧
        Neighbour.waiting before.toList = [⟨"accounts", "2"⟩] ∧
        Neighbour.waiting after.toList = [⟨"accounts", "2"⟩] ∧
        ((∃ found, outcome.result = .ok found) ↔
          ∀ neighbour ∈ after.toList, ∃ document, neighbour = .fetched document) := by
  intro held d t call now outcome asked first second
  have hheld : Dict.find? d.relations call.relation = some held := rfl
  obtain ⟨-, -, -, -, before, after, -, -, -, hbefore, hgrows, hafter, -, hends, -⟩ :=
    run_resumes [] [call] call hheld
  obtain ⟨hdown, hgone⟩ : (call.run [] d).result = .error (.storage "down") ∧
      outcome.result = .error .notFound := by
    have hran : (match (call.run [] d).result, outcome.result with
        | .error (.storage text), .error .notFound => decide (text = "down")
        | .error _, .error _ => false
        | .error _, .ok _ => false
        | .ok _, _ => false) = true := by decide +kernel
    split at hran
    · next text hresult hend =>
      rw [hresult, of_decide_eq_true hran]
      exact ⟨rfl, hend⟩
    all_goals cases hran
  have hwaiting : ∀ {document : Document} {neighbours : Neighbours Document},
      Dict.find? document.relations "accounts" = some neighbours →
      ((Dict.find? document.relations "accounts").map fun n => Neighbour.waiting n.toList) =
          some [⟨"accounts", "2"⟩] →
        Neighbour.waiting neighbours.toList = [⟨"accounts", "2"⟩] := by
    intro document neighbours h hwaits
    rw [h] at hwaits
    exact Option.some.inj hwaits
  exact ⟨hheld, by decide +kernel, hdown, by decide +kernel, hgone, before, after, hbefore, hafter,
    hgrows, hwaiting hbefore (by decide +kernel), hwaiting hafter (by decide +kernel), hends⟩

end FetchCall

end GraphMapper
