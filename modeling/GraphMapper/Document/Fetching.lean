import GraphMapper.Document.Reading
import GraphMapper.Mutation.Documents
import GraphMapper.Query.Statement
import GraphMapper.Transport

/-! # Fetching documents

Statements that a caller hands over are run when they are ready. A query for whole documents is run in
this way and its rows are read. The neighbours of a document are fetched one by one, in order; what was
fetched before a failure stays fetched, and nothing is fetched twice.
-/

namespace GraphMapper.Mapper

/-- Runs a statement that is ready; any other is refused before the transport sees it. -/
def execute (_ : Mapper) (t : Transport) (executed : List Statement) (s : Statement) :
    Except Error (List Json) × List Statement :=
  match s.checkReady with
  | .error e => (.error e, executed)
  | .ok () => t.execute executed s

/-- Runs a query for whole documents and reads its rows. -/
def fetch (m : Mapper) (t : Transport) (executed : List Statement) (q : Query) :
    Except Error (List Document) × List Statement :=
  if q.returnsDocuments then
    match m.statement q with
    | .error e => (.error e, executed)
    | .ok s =>
      match m.execute t executed s with
      | (.error e, executed) => (.error e, executed)
      | (.ok rows, executed) => (m.readAll q.entity rows, executed)
  else (.error (.invalidQuery .rowsNotDocuments), executed)

/-! ## Neighbours -/

/-- The document in the first row; no row or null means that the document is gone. -/
def firstDocument (m : Mapper) (rows : List Json) : Except Error Document :=
  match rows with
  | [] => .error .notFound
  | row :: _ => if row.isNull then .error .notFound else m.readByOrigin row

/-- Fetches a neighbour unless it has been fetched. -/
def fetchNeighbour (m : Mapper) (t : Transport) (executed : List Statement)
    (neighbour : Neighbour Document) : Except Error (Neighbour Document) × List Statement :=
  match neighbour with
  | .fetched document => (.ok (.fetched document), executed)
  | .unread handle =>
    match m.read handle with
    | .error e => (.error e, executed)
    | .ok s =>
      match t.execute executed s with
      | (.error e, executed) => (.error e, executed)
      | (.ok rows, executed) => ((m.firstDocument rows).map .fetched, executed)

/-- Fetches neighbours in order up to the first failure. Gives all of them as they are afterwards,
and the failure if there was one. -/
def fetchEach (m : Mapper) (t : Transport) (executed : List Statement) :
    List (Neighbour Document) → List (Neighbour Document) × Option Error × List Statement
  | [] => ([], none, executed)
  | neighbour :: rest =>
    match m.fetchNeighbour t executed neighbour with
    | (.error e, executed) => (neighbour :: rest, some e, executed)
    | (.ok neighbour, executed) =>
      let (rest, failure, executed) := m.fetchEach t executed rest
      (neighbour :: rest, failure, executed)

/-- Fetches all neighbours under a relation. -/
def fetchNeighbours (m : Mapper) (t : Transport) (executed : List Statement) :
    Neighbours Document → Neighbours Document × Option Error × List Statement
  | .one neighbour =>
    match m.fetchNeighbour t executed neighbour with
    | (.error e, executed) => (.one neighbour, some e, executed)
    | (.ok neighbour, executed) => (.one neighbour, none, executed)
  | .many neighbours =>
    let (neighbours, failure, executed) := m.fetchEach t executed neighbours
    (.many neighbours, failure, executed)

/-- What comes of fetching a relation of a document. -/
structure FetchOutcome where
  result : Except Error (Neighbours Document)
  /-- The document with what was fetched. -/
  document : Document
  executed : List Statement

/-- Fetches a relation that the document holds. -/
def fetchRelation (m : Mapper) (t : Transport) (executed : List Statement) (d : Document)
    (relation : String) : FetchOutcome :=
  match Dict.find? d.relations relation with
  | none => ⟨.error (.unknownRelationship d.entity relation), d, executed⟩
  | some neighbours =>
    let (neighbours, failure, executed) := m.fetchNeighbours t executed neighbours
    let document := { d with relations := Dict.insert d.relations relation neighbours }
    match failure with
    | some e => ⟨.error e, document, executed⟩
    | none => ⟨.ok neighbours, document, executed⟩

end GraphMapper.Mapper
