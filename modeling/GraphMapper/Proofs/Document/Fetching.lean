import GraphMapper.Document.Fetching
import GraphMapper.Proofs.Document.Reading
import GraphMapper.Proofs.Query.Built
import GraphMapper.Proofs.Transport

/-!
# Failures before and after a statement is sent

A request sends no statement, or it sends one that is ready and reads the answer (`Transport.Asks`).
A query that cannot be made is refused before anything is sent, and what disagrees with the
declarations afterwards is malformed (`Entity.failsWith_read`). There is one failure that is called
the caller's although the answer has been seen: a document was asked for by its handle, and the one
that came names a collection of no entity (`Mapper.Strange`).
-/

namespace GraphMapper

open Outcome

/-! ## Reading as an entity -/

namespace Entity

variable {e : Entity} {t : Topology} {stored : Dict String Json}

/-- The error says that a stored document of the entity is malformed. -/
def Malformed (e : Entity) (error : Error) : Prop :=
  ∃ fault, error = .malformedDocument e.name fault

theorem failsWith_malformed {α : Type} (fault : DocumentFault) :
    FailsWith e.Malformed (e.malformed fault : Except Error α) :=
  .error ⟨fault, rfl⟩

theorem failsWith_checkId : FailsWith e.Malformed (e.checkId stored) := by
  unfold checkId
  split
  · exact .ok ()
  · split
    · exact failsWith_malformed _
    · split
      · exact .ok ()
      · exact failsWith_malformed _

theorem failsWith_readAttribute {a : Attribute} :
    FailsWith e.Malformed (e.readAttribute stored a) := by
  unfold readAttribute
  dsimp only
  have hchecked : ∀ v : Value, FailsWith e.Malformed
      (if v.isNull ∧ a.required then do
        let _ : Unit ← e.malformed (.nullAttribute a.name)
        return v
      else return v) := by
    intro v
    split
    · exact .bind (failsWith_malformed _) fun _ _ => .ok v
    · exact .ok v
  split
  · split
    · exact hchecked _
    · exact .bind (failsWith_malformed _) fun v _ => hchecked v
  · split
    · exact hchecked .null
    · exact .bind (failsWith_malformed _) fun v _ => hchecked v

theorem failsWith_readAttributes {attributes : List Attribute} :
    FailsWith e.Malformed (e.readAttributes stored attributes) := by
  induction attributes with
  | nil => exact .ok []
  | cons a rest ih => exact .bind failsWith_readAttribute fun v _ => .bind ih fun _ _ => .ok _

theorem failsWith_readNeighbour {relation : String} {raw : Json} :
    FailsWith e.Malformed (e.readNeighbour relation raw) := by
  unfold readNeighbour
  split
  · exact .ok _
  · exact failsWith_malformed _

theorem failsWith_readNeighbours {relation : String} {cardinality : Cardinality} {raw : Json} :
    FailsWith e.Malformed (e.readNeighbours relation cardinality raw) := by
  unfold readNeighbours
  split
  · exact .bind (.mapM fun _ _ => failsWith_readNeighbour) fun _ _ => .ok _
  · exact .bind failsWith_readNeighbour fun _ _ => .ok _
  · exact .bind failsWith_readNeighbour fun _ _ => .ok _

/-- The names of relations are found, so that nothing but what is stored can be wrong. -/
theorem failsWith_readRelations {names : List String}
    (h : ∀ name ∈ names, ∃ hop, t.hop e.name name = .ok hop) :
    FailsWith e.Malformed (e.readRelations t stored names) := by
  induction names with
  | nil => exact .ok []
  | cons name rest ih =>
    obtain ⟨⟨hop, hhop⟩, hrest⟩ := List.forall_mem_cons.mp h
    rw [readRelations]
    split
    · exact ih hrest
    · rw [hhop]
      change FailsWith e.Malformed (if _ then _ else _)
      split
      · exact ih hrest
      · exact .bind failsWith_readNeighbours fun _ _ => .bind (ih hrest) fun _ _ => .ok _

/-- A stored document that cannot be read as an entity is malformed. -/
theorem failsWith_read {raw : Json} : FailsWith e.Malformed (e.read t raw) := by
  unfold read
  split
  · split
    · exact failsWith_malformed _
    · refine .bind failsWith_checkId fun _ _ => .bind failsWith_readAttributes fun _ _ => ?_
      exact .bind (failsWith_readRelations fun _ => Topology.exists_hop) fun _ _ => .ok _
  · exact failsWith_malformed _

end Entity

/-! ## Documents of nobody -/

/-- The stored document names a collection that no entity has. -/
def Mapper.Strange (m : Mapper) (stored : Json) (collection : String) : Prop :=
  ∃ id handle, (stored.get? "_id").bind Json.toString? = some id ∧
    Handle.parse? id = some handle ∧ handle.collection = collection ∧
    m.schema.ofCollection? collection = none

namespace Mapper

variable {m : Mapper}

/-- A stored document does not name its entity, and is malformed, or nobody has the collection that
it names. -/
theorem failsWith_originOf {stored : Json} : FailsWith (fun error => error.kind = .materialization ∨
      ∃ collection, m.Strange stored collection ∧ error = .unknownEntity collection)
    (m.originOf stored) := by
  unfold originOf
  split
  · exact .error (Or.inl rfl)
  · next id hid =>
    split
    · exact .error (Or.inl rfl)
    · next handle hparsed =>
      unfold Schema.ofCollection
      split
      · exact .ok _
      · next hnone => exact .error (Or.inr ⟨_, ⟨id, handle, hid, hparsed, rfl, hnone⟩, rfl⟩)

theorem Strange.readByOrigin {stored : Json} {collection : String}
    (h : m.Strange stored collection) :
    m.readByOrigin stored = .error (.unknownEntity collection) := by
  obtain ⟨id, handle, hid, hparsed, rfl, hnone⟩ := h
  simp only [Mapper.readByOrigin, originOf, hid, hparsed, Schema.ofCollection, hnone]
  rfl

/-- Of the failures to read a document of the entity that it names, one is called the caller's. -/
theorem readByOrigin_caller_iff {stored : Json} {error : Error} :
    m.readByOrigin stored = .error error ∧ error.kind = .queryConstruction ↔
      ∃ collection, m.Strange stored collection ∧ error = .unknownEntity collection := by
  constructor
  · rintro ⟨h, hkind⟩
    have hread : FailsWith (fun error => error.kind = .materialization ∨
        ∃ collection, m.Strange stored collection ∧ error = .unknownEntity collection)
        (m.readByOrigin stored) := by
      refine .bind failsWith_originOf fun e _ => Entity.failsWith_read.mono ?_
      rintro _ ⟨fault, rfl⟩
      exact Or.inl rfl
    refine (hread error h).resolve_left fun hother => ?_
    cases hkind.symm.trans hother
  · rintro ⟨collection, hstrange, rfl⟩
    exact ⟨hstrange.readByOrigin, rfl⟩

/-- The failure to find a document of a handle is that there is none, or that of reading it. -/
theorem firstDocument_caller_iff {rows : List Json} {error : Error} :
    m.firstDocument rows = .error error ∧ error.kind = .queryConstruction ↔
      ∃ row collection, rows.head? = some row ∧ m.Strange row collection ∧
        error = .unknownEntity collection := by
  cases rows with
  | nil =>
    constructor
    · rintro ⟨h, hkind⟩
      obtain rfl := Except.error.inj h
      cases hkind
    · rintro ⟨_, _, hrow, _⟩
      cases hrow
  | cons row rest =>
    have hfirst : (∃ row' collection, (row :: rest).head? = some row' ∧
        m.Strange row' collection ∧ error = .unknownEntity collection) ↔
        m.readByOrigin row = .error error ∧ error.kind = .queryConstruction := by
      simp [readByOrigin_caller_iff]
    rw [hfirst, firstDocument]
    cases row with
    | null =>
      -- null is no document, and as a document it would not name an entity
      constructor <;>
      · rintro ⟨h, hkind⟩
        obtain rfl := Except.error.inj h
        cases hkind
    | _ => rfl

/-- Nothing is called the caller's in reading the rows of a built query. -/
theorem failsWith_readAll {entity : String} {e : Entity} (he : m.schema.lookup entity = .ok e)
    (rows : List Json) : FailsWith e.Malformed (m.readAll entity rows) := by
  rw [readAll, he]
  exact .mapM fun _ _ => Entity.failsWith_read

end Mapper

/-! ## Requests -/

/-- What a caller asks of a database. -/
inductive Request where
  | execute (statement : Statement)
  | fetch (query : Query)
  | resolve (neighbour : Neighbour Document)

namespace Request

/-- Whether a run has failed and how, and what has been handed over. -/
def ending {α : Type} (run : Except Error α × List Statement) : Option Error × List Statement :=
  match run with
  | (.ok _, executed) => (none, executed)
  | (.error error, executed) => (some error, executed)

@[simp] theorem ending_executed {α : Type} (run : Except Error α × List Statement) :
    (ending run).2 = run.2 := by
  rcases run with ⟨_ | _, executed⟩ <;> rfl

@[simp] theorem ending_failure {α : Type} {run : Except Error α × List Statement} {error : Error} :
    (ending run).1 = some error ↔ run.1 = .error error := by
  rcases run with ⟨_ | _, executed⟩ <;> simp [ending]

/-- The failure of a request, if there is one, and all statements that have been handed over. -/
def run (m : Mapper) (t : Transport) (executed : List Statement) :
    Request → Option Error × List Statement
  | execute statement => ending (m.execute t executed statement)
  | fetch query => ending (m.fetch t executed query)
  | resolve neighbour => ending (m.fetchNeighbour t executed neighbour)

/-- A query that is fetched has been made by the mapper. -/
def MadeBy (m : Mapper) : Request → Prop
  | fetch query => ∃ entity ops, m.query entity ops = .ok query
  | _ => True

/-- The rows give the document of a stranger for a neighbour that has not been fetched. -/
def Strays (m : Mapper) (rows : List Json) (error : Error) : Request → Prop
  | resolve (.unread _) => ∃ row collection, rows.head? = some row ∧
      m.Strange row collection ∧ error = .unknownEntity collection
  | _ => False

end Request

/-! ## What a run asks -/

/-- The statement that asks for a document has no parameters. -/
theorem Mapper.isReady_read {m : Mapper} {handle : Handle} {s : Statement}
    (h : m.read handle = .ok s) : s.isReady = true := by
  obtain ⟨owner, -, h⟩ := bind_eq_ok.mp h
  obtain rfl := pure_eq_ok.mp h
  rfl

/-- The run hands over nothing, or it hands over a statement that is ready and reads the answer. -/
def Transport.Asks {α : Type} (t : Transport) (executed : List Statement)
    (run : Except Error α × List Statement) (read : List Json → Except Error α) : Prop :=
  run.2 = executed ∨
    ∃ s, s.isReady = true ∧ run = (t.answer executed s >>= read, executed ++ [s])

namespace Transport

variable {t : Transport} {executed : List Statement}

/-- A transport that is handed a ready statement. -/
theorem asks_ready {s : Statement} (hs : s.isReady = true) :
    t.Asks executed (t.execute executed s) .ok := by
  refine Or.inr ⟨s, hs, ?_⟩
  rw [execute]
  cases t.answer executed s <;> rfl

/-- The mapper looks whether a statement is ready before it hands it over. -/
theorem asks_execute (m : Mapper) (s : Statement) :
    t.Asks executed (m.execute t executed s) .ok := by
  rw [Mapper.execute, Statement.checkReady]
  cases hs : s.isReady with
  | false => exact Or.inl rfl
  | true => exact asks_ready hs

/-- The rows that a run ends with may be read further. -/
theorem Asks.reading {α : Type} {run : Except Error (List Json) × List Statement}
    (h : t.Asks executed run .ok) (read : List Json → Except Error α) :
    t.Asks executed
      (match run with
        | (.error e, executed) => (.error e, executed)
        | (.ok rows, executed) => (read rows, executed)) read := by
  rcases h with h | ⟨s, hs, rfl⟩
  · left
    rcases run with ⟨_ | _, all⟩ <;> exact h
  · refine Or.inr ⟨s, hs, ?_⟩
    cases t.answer executed s <;> rfl

theorem asks_fetch (m : Mapper) (q : Query) :
    t.Asks executed (m.fetch t executed q) (m.readAll q.entity) := by
  unfold Mapper.fetch
  split
  · split
    · exact Or.inl rfl
    · exact (asks_execute m _).reading _
  · exact Or.inl rfl

/-- Nothing is looked at here: the statement that asks for a document is ready by itself. -/
theorem asks_fetchNeighbour (m : Mapper) (handle : Handle) :
    t.Asks executed (m.fetchNeighbour t executed (.unread handle))
      fun rows => (m.firstDocument rows).map .fetched := by
  unfold Mapper.fetchNeighbour
  dsimp only
  split
  · exact Or.inl rfl
  · next hread => exact (asks_ready (Mapper.isReady_read hread)).reading _

/-- A run that asks hands over one ready statement at most. It fails afterwards with an error of the
caller if the transport answers with it or the reading does. -/
theorem Asks.sends {α : Type} {run : Except Error α × List Statement}
    {read : List Json → Except Error α} {late : List Json → Error → Prop}
    (h : t.Asks executed run read)
    (hlate : ∀ rows error, read rows = .error error ∧ error.kind = .queryConstruction ↔
      late rows error) :
    ∃ sent, (Request.ending run).2 = executed ++ sent ∧ sent.length ≤ 1 ∧
      (∀ s ∈ sent, s.isReady = true) ∧ ∀ s ∈ sent, ∀ error,
        (Request.ending run).1 = some error ∧ error.kind = .queryConstruction ↔
          t.answer executed s = .error error ∧ error.kind = .queryConstruction ∨
            ∃ rows, t.answer executed s = .ok rows ∧ late rows error := by
  rcases h with h | ⟨s, hs, rfl⟩
  · exact ⟨[], by simp [h], by simp, by simp, by simp⟩
  · refine ⟨[s], by simp, by simp, List.forall_mem_singleton.mpr hs,
      List.forall_mem_singleton.mpr fun error => ?_⟩
    rw [Request.ending_failure]
    cases t.answer executed s with
    | error other => simp [bind, Except.bind]
    | ok rows => simpa [bind, Except.bind] using hlate rows error

end Transport

/-- A request hands over one ready statement at most. With an error of the caller it fails before,
unless the transport answers with that error, or a neighbour turns out to be the document of a
stranger. -/
theorem Request.run_sends {m : Mapper} {r : Request} (hr : r.MadeBy m) (t : Transport)
    (executed : List Statement) :
    ∃ sent, (r.run m t executed).2 = executed ++ sent ∧ sent.length ≤ 1 ∧
      (∀ s ∈ sent, s.isReady = true) ∧ ∀ s ∈ sent, ∀ error,
        (r.run m t executed).1 = some error ∧ error.kind = .queryConstruction ↔
          t.answer executed s = .error error ∧ error.kind = .queryConstruction ∨
            ∃ rows, t.answer executed s = .ok rows ∧ r.Strays m rows error := by
  cases r with
  | execute s =>
    exact (Transport.asks_execute m s).sends fun rows error =>
      ⟨fun ⟨h, _⟩ => (nomatch h), False.elim⟩
  | fetch q =>
    obtain ⟨entity, ops, hq⟩ := hr
    obtain ⟨d, hd, -, rfl⟩ := Mapper.query_built hq
    obtain ⟨e, he, -⟩ := hd.collection
    refine (Transport.asks_fetch m d.query).sends fun rows error =>
      ⟨fun ⟨h, hkind⟩ => ?_, False.elim⟩
    obtain ⟨fault, rfl⟩ := Mapper.failsWith_readAll he rows error h
    cases hkind
  | resolve neighbour =>
    cases neighbour with
    | fetched document =>
      have hasks : t.Asks executed (m.fetchNeighbour t executed (.fetched document))
          fun _ => .ok (.fetched document) := Or.inl rfl
      exact hasks.sends fun rows error => ⟨fun ⟨h, _⟩ => (nomatch h), False.elim⟩
    | unread handle =>
      refine (Transport.asks_fetchNeighbour m handle).sends fun rows error => ?_
      refine Iff.trans (and_congr_left' ?_) Mapper.firstDocument_caller_iff
      cases m.firstDocument rows <;> simp [Except.map]

/-- The persons over an age, asked for with a transport that answers with an error of the caller. Their
statement is handed over, and the error comes back. -/
theorem Request.run_sends_ages :
    let t : Transport := ⟨fun _ _ => .error (.unknownParameter "least")⟩
    ∃ q st, (Request.fetch q).MadeBy Bank.mapper ∧
      st.query = "FOR doc IN people\nFILTER doc.age > @lit0\nRETURN doc" ∧
      (Request.fetch q).run Bank.mapper t [] = (some (.unknownParameter "least"), [st]) ∧
      ∃ sent, ((Request.fetch q).run Bank.mapper t []).2 = [] ++ sent ∧ sent.length ≤ 1 ∧
        (∀ s ∈ sent, s.isReady = true) ∧ ∀ s ∈ sent, ∀ error,
          ((Request.fetch q).run Bank.mapper t []).1 = some error ∧
              error.kind = .queryConstruction ↔
            t.answer [] s = .error error ∧ error.kind = .queryConstruction ∨
              ∃ rows, t.answer [] s = .ok rows ∧
                (Request.fetch q).Strays Bank.mapper rows error := by
  intro t
  have hrun : (do
      let q ← Bank.mapper.query "Person" [.filter (.compare "age" .greaterThan (.literal (.int 17)))]
      return match (Request.fetch q).run Bank.mapper t [] with
        | (some (.unknownParameter name), sent) => decide (name = "least" ∧
          sent.map Statement.query = ["FOR doc IN people\nFILTER doc.age > @lit0\nRETURN doc"])
        | (some _, _) => false
        | (none, _) => false).toOption = some true := by decide +kernel
  obtain ⟨q, hq, hrun⟩ := bind_eq_ok.mp (eq_ok_of_toOption hrun)
  have hran := pure_eq_ok.mp hrun
  split at hran
  · next name sent hsent =>
    obtain ⟨rfl, htexts⟩ := of_decide_eq_true hran
    obtain ⟨st, rfl, htext⟩ := List.map_eq_singleton_iff.mp htexts
    have hmade : (Request.fetch q).MadeBy Bank.mapper := ⟨_, _, hq⟩
    exact ⟨q, st, hmade, htext, hsent, Request.run_sends hmade t []⟩
  all_goals cases hran

/-- A person is asked for, and the document of a stranger comes: the error is called the caller's
after a statement was handed over. -/
theorem Request.run_strays_stranger :
    let t : Transport :=
      ⟨fun _ _ => .ok [.object [("_id", .string "strangers/1"), ("_key", .string "1")]]⟩
    Bank.mapper.Resolved ∧ (Request.resolve (.unread ⟨"people", "1"⟩)).MadeBy Bank.mapper ∧
      ∃ error sent, (Request.resolve (.unread ⟨"people", "1"⟩)).run Bank.mapper t [] =
          (some error, sent) ∧ error.kind = .queryConstruction ∧ sent ≠ [] := by
  intro t
  refine ⟨Bank.mapper_resolved, trivial, ?_⟩
  have hrun : (match (Request.resolve (.unread ⟨"people", "1"⟩)).run Bank.mapper t [] with
      | (some error, sent) => decide (error.kind = .queryConstruction) && !sent.isEmpty
      | (none, _) => false) = true := by decide +kernel
  rcases hcase : (Request.resolve (.unread ⟨"people", "1"⟩)).run Bank.mapper t [] with
    ⟨_ | error, sent⟩
  · rw [hcase] at hrun
    cases hrun
  · rw [hcase] at hrun
    obtain ⟨hkind, hsent⟩ := Bool.and_eq_true_iff.mp hrun
    exact ⟨error, sent, rfl, of_decide_eq_true hkind, by simpa using hsent⟩

end GraphMapper
