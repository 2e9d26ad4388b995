import GraphMapper.Proofs.Mutation.Removal
import GraphMapper.Proofs.Query.Names

/-!
# Reserved words in statements

Attributes that are reserved words stand between backticks, collections stand bare whatever they are
called. In the text of every command the reserved words among the bare names are therefore those
among its collections, each where the collection stands (`Command.reserved_bareNames`). The
collections of a mapper are those of its entities and of its links, and each of them is in a
statement; so a reserved word stands bare in some statement exactly if a collection is called that
(`Mapper.Resolved.bare_reserved_iff`).
-/

namespace GraphMapper

open Outcome

/-! ## Bare names -/

namespace Aql

/-- The word is reserved in any mix of capitals and small letters. -/
def isReservedWord (s : String) : Bool := reservedWords.contains (Text.toLowerAscii s)

/-- The names in a text that stand neither between backticks nor in quotes nor behind an at-sign. -/
def bareNames : List Lexeme → List String
  | [] => []
  | .mark .atSign :: .name _ :: rest => bareNames rest
  | .name s :: rest => s :: bareNames rest
  | _ :: rest => bareNames rest

def Part.collection? : Part → Option String
  | collection name => some name
  | _ => none

/-- The collections that a command names, in the order of its text. -/
def Command.collections (c : Command) : List String := c.parts.filterMap Part.collection?

theorem Command.mem_collections {c : Command} {name : String} :
    name ∈ c.collections ↔ .collection name ∈ c.parts := by
  rw [collections, List.mem_filterMap]
  constructor
  · rintro ⟨p, hp, hname⟩
    cases p with
    | collection other => exact Option.some.inj hname ▸ hp
    | _ => cases hname
  · exact fun h => ⟨_, h, rfl⟩

/-- Reads the reserved words among the bare names; of the parts only collections have any. -/
def reservedReader : Reader String where
  read ls := (bareNames ls).filter isReservedWord
  part p := p.collection?.toList.filter isReservedWord
  read_nil := rfl
  read_between l rest h := by
    cases h with
    | word w => rfl
    | number n => rfl
    | @mark m hm => cases m <;> first | rfl | exact absurd rfl hm
  read_column n rest := rfl

/-- An attribute is no bare name that is reserved. -/
theorem reservedReader_attribute (s : String) (rest : List Lexeme) :
    reservedReader.read (attributeName s :: rest) = reservedReader.read rest := by
  unfold attributeName
  split
  · rfl
  · next hfree =>
    have hnot : isReservedWord s = false := by simpa [isReservedWord] using hfree
    exact List.filter_cons_of_neg (by simp [hnot])

theorem reservedReader_var (v : Var) (rest : List Lexeme) :
    reservedReader.read (v.lexemes ++ rest) = reservedReader.read rest := by
  cases v <;> rfl

theorem reservedReader_gives (p : Part) :
    reservedReader.Gives p.lexemes (reservedReader.part p) := by
  intro rest _
  cases p with
  | var v => exact reservedReader_var v rest
  | slot s => cases s <;> rfl
  | key name => rfl
  | collection name =>
    change (name :: bareNames rest).filter isReservedWord = _
    rw [← List.singleton_append, List.filter_append]
    rfl
  | expr e =>
    cases e with
    | column n => rfl
    | field v segments =>
      change reservedReader.read (v.lexemes ++ _ ++ rest) = reservedReader.read rest
      rw [List.append_assoc, reservedReader_var]
      induction segments with
      | nil => rfl
      | cons s segments ih =>
        exact (reservedReader_attribute s _).trans ih

/-- The reserved words that stand bare in the text of a command are those among its collections. -/
theorem Command.reserved_bareNames (c : Command) :
    (bareNames c.lexemes).filter isReservedWord = c.collections.filter isReservedWord := by
  have hread := reservedReader.read_command c fun p _ => reservedReader_gives p
  rw [collections, List.filterMap_eq_flatMap_toList, List.filter_flatMap]
  exact hread

end Aql

/-! ## Collections of statements -/

open Aql

/-- A command on edge records names no collection but that of the records. -/
theorem Aql.Command.collections_of_edgeEnds {c : Command} {collection : String}
    {ends : List (EdgeEnd × Slot)} (h : c.edgeEnds? = some (collection, ends)) (name : String) :
    name ∈ c.collections ↔ name = collection := by
  rw [mem_collections]
  cases c with
  | insertEdge source target edges =>
    obtain ⟨rfl, -⟩ := Prod.mk.inj (Option.some.inj h)
    simp [parts]
  | removeEdges edges slots =>
    obtain ⟨rfl, -⟩ := Prod.mk.inj (Option.some.inj h)
    simp [parts]
  | _ => cases h

namespace Mapper

/-- The collection is that of an entity or of a link. -/
def Owns (m : Mapper) (collection : String) : Prop :=
  (∃ e ∈ m.schema.all, e.collectionName = collection) ∨
    ∃ l ∈ m.topology.links, l.collection = collection

/-- The statements that a mapper makes of its own queries, of mutations and of handles. -/
inductive Produces (m : Mapper) : Statement → Prop
  | query {entity : String} {ops : List Operation} {q : Query} {st : Statement} :
      m.query entity ops = .ok q → m.statement q = .ok st → Produces m st
  | mutation {mutation : Mutation} {made : List Statement} {st : Statement} :
      mutation.statements m = .ok made → st ∈ made → Produces m st
  | read {handle : Handle} {st : Statement} : m.read handle = .ok st → Produces m st

variable {m : Mapper} {st : Statement} {name : String}

theorem Writes.collections (hm : m.Resolved) (h : m.Writes st)
    (hname : name ∈ st.command.collections) : m.Owns name := by
  rcases h.suits hm with hnone | ⟨l, hl, ends, hsuits⟩
  · -- a statement that names no edge records is one on a document
    have hentity : ∃ e ∈ m.schema.all, st.command.collections = [e.collectionName] := by
      cases h with
      | @insertDocument e stored he => exact ⟨e, he, rfl⟩
      | @updateDocument e key patch he => exact ⟨e, he, rfl⟩
      | @removeDocument e key he => exact ⟨e, he, rfl⟩
      | clear => cases hnone
      | @insertEdge h source target =>
        unfold Hop.insertEdge at hnone
        split at hnone
        cases hnone
      | detach => cases hnone
    obtain ⟨e, he, hcollections⟩ := hentity
    rw [hcollections, List.mem_singleton] at hname
    exact Or.inl ⟨e, he, hname.symm⟩
  · have hsame := (Command.collections_of_edgeEnds hsuits.edgeEnds name).mp hname
    exact Or.inr ⟨l, hl, hsame.symm⟩

/-- The collections in the statements of a mapper are its own. -/
theorem Produces.collections (hm : m.Resolved) (h : m.Produces st)
    (hname : name ∈ st.command.collections) : m.Owns name := by
  cases h with
  | @query entity ops q st hq hst =>
    obtain ⟨_, hshows, -⟩ := statement_shows hst
    obtain ⟨d, hd, -, rfl⟩ := query_built hq
    cases hshows.sources _ (Command.mem_collections.mp hname) rfl with
    | root =>
      obtain ⟨e, he, hcollection⟩ := hd.collection
      exact Or.inl ⟨e, (hm.wellFormed.lookup_eq_ok he).1, hcollection⟩
    | edges hhop hentry => exact Or.inr (hm.link_of_edgeCollections hhop hentry)
  | mutation hmade hst => exact (Mutation.writes hm hmade st hst).collections hm hname
  | read hst =>
    obtain ⟨e, -, hst⟩ := bind_eq_ok.mp hst
    obtain rfl := pure_eq_ok.mp hst
    cases hname

/-- Every collection of a mapper is in one of its statements: that of an entity where a document is
removed, that of a link where the documents at its source are detached. -/
theorem Owns.produces (hm : m.Resolved) (h : m.Owns name) :
    ∃ st, m.Produces st ∧ name ∈ st.command.collections := by
  obtain ⟨ds, hds, ht⟩ := hm.topology
  have hremove : ∀ e ∈ m.schema.all, (Mutation.remove e.name "").statements m =
      .ok (m.sweeps e ⟨e.collectionName, ""⟩ ++ [removed e ""]) := fun e he =>
    remove_eq (hm.wellFormed.lookup_of_mem he)
  rcases h with ⟨e, he, rfl⟩ | ⟨l, hl, rfl⟩
  · refine ⟨removed e "", .mutation (hremove e he) (by simp), ?_⟩
    exact List.mem_singleton_self e.collectionName
  · obtain ⟨e, he, hsource, -⟩ := ht.exists_entityAt hm.wellFormed hds hl .source
    have hleaving : l ∈ m.topology.outgoing e.name :=
      List.mem_filter.mpr ⟨hl, beq_iff_eq.mpr hsource.symm⟩
    refine ⟨detach ⟨e.collectionName, ""⟩ .source l, .mutation (hremove e he) ?_, ?_⟩
    · exact List.mem_append_left _ (List.mem_append_left _ (List.mem_map_of_mem hleaving))
    · exact (Command.collections_of_edgeEnds rfl _).mpr rfl

/-- In the text of every statement the reserved words that stand bare are those among its
collections. A reserved word stands bare in a statement of the mapper exactly if a collection of the
mapper is called that. -/
theorem Resolved.bare_reserved_iff (hm : m.Resolved) :
    (∀ st, m.Produces st → st.query = textOf st.command.lexemes ∧
      (bareNames st.command.lexemes).filter isReservedWord =
        st.command.collections.filter isReservedWord) ∧
    ∀ s, isReservedWord s = true →
      ((∃ st, m.Produces st ∧ s ∈ bareNames st.command.lexemes) ↔
        (∃ e ∈ m.schema.all, e.collectionName = s) ∨ ∃ l ∈ m.topology.links, l.collection = s) := by
  refine ⟨fun st _ => ⟨rfl, st.command.reserved_bareNames⟩, fun s hs => ?_⟩
  have hbare : ∀ st : Statement,
      s ∈ bareNames st.command.lexemes ↔ s ∈ st.command.collections := by
    intro st
    have hmem : s ∈ (bareNames st.command.lexemes).filter isReservedWord ↔
        s ∈ st.command.collections.filter isReservedWord := by rw [st.command.reserved_bareNames]
    simpa [List.mem_filter, hs] using hmem
  constructor
  · rintro ⟨st, hst, hname⟩
    exact hst.collections hm ((hbare st).mp hname)
  · intro h
    obtain ⟨st, hst, hname⟩ := Owns.produces hm h
    exact ⟨st, hst, (hbare st).mpr hname⟩

/-- The collections of the bank are no reserved words. -/
theorem bare_reserved_iff_bank :
    Bank.mapper.Resolved ∧
    (∀ st, Bank.mapper.Produces st → st.query = textOf st.command.lexemes ∧
      (bareNames st.command.lexemes).filter isReservedWord =
        st.command.collections.filter isReservedWord) ∧
    ∀ s, isReservedWord s = true →
      ((∃ st, Bank.mapper.Produces st ∧ s ∈ bareNames st.command.lexemes) ↔
        (∃ e ∈ Bank.mapper.schema.all, e.collectionName = s) ∨
          ∃ l ∈ Bank.mapper.topology.links, l.collection = s) :=
  ⟨Bank.mapper_resolved, Resolved.bare_reserved_iff Bank.mapper_resolved⟩

/-- The documents of an entity that is called like a clause. -/
theorem bare_filter :
    let m := (Mapper.ofEntities [{ name := "Filter" }] {}).toOption.getD ⟨{}, {}, {}⟩
    m.Resolved ∧ ∃ st, m.Produces st ∧ st.query = "FOR doc IN filter\nRETURN doc" ∧
      "filter" ∈ bareNames st.command.lexemes ∧ isReservedWord "filter" = true := by
  intro m
  have hresolved : m.Resolved := resolved_of_isOk (by decide +kernel)
  have hrun : (do
      let q ← m.query "Filter" []
      let st ← m.statement q
      return (st.query, decide ("filter" ∈ bareNames st.command.lexemes))).toOption =
        some ("FOR doc IN filter\nRETURN doc", true) := by decide +kernel
  obtain ⟨q, hq, hrun⟩ := bind_eq_ok.mp (eq_ok_of_toOption hrun)
  obtain ⟨st, hst, hrun⟩ := bind_eq_ok.mp hrun
  obtain ⟨htext, hbare⟩ := Prod.mk.inj (pure_eq_ok.mp hrun)
  exact ⟨hresolved, st, .query hq hst, htext, of_decide_eq_true hbare, by decide⟩

end Mapper

end GraphMapper
