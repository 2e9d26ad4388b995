import GraphMapper.Proofs.Aql.Words
import GraphMapper.Proofs.Mutation.Complete

/-!
# The texts of edge statements

What a statement does to an edge store is given by its command (`Statement.runEdges`), and a
database has its text alone. The words of a text tell an insertion of an edge record from a
removal, and show the collection and the bind variables that the ends are compared with or set to
(`EdgeChange.read?`).

The statements of a mutation do to a store what their texts say when the names in them are looked
up in the bind variables (`Mutation.runEdges_eq`); texts of other statements show no change of
edges.
-/

namespace GraphMapper

open Aql

/-- A change of the edge records of a collection, with the names of bind variables. -/
inductive EdgeChange where
  | insert (collection source target : String)
  | remove (collection : String) (ends : List (EdgeEnd × String))
  deriving DecidableEq

namespace EdgeChange

/-! ## Reading a text -/

/-- The name behind an at-sign. -/
def placeholder? (word : String) : Option String :=
  match word.toList with
  | '@' :: name => some (String.ofList name)
  | _ => none

/-- The end of an edge record `e`. -/
def end? (word : String) : Option EdgeEnd :=
  if word = "e._from" then some .source else if word = "e._to" then some .target else none

/-- The ends that a condition compares with placeholders, and the words after it. -/
def ends? : List String → Option (List (EdgeEnd × String) × List String)
  | member :: "==" :: value :: rest => do
    let selected := (← end? member, ← placeholder? value)
    match rest with
    | "AND" :: rest =>
      let (others, rest) ← ends? rest
      return (selected :: others, rest)
    | rest => return ([selected], rest)
  | _ => none

/-- The change that a text says. -/
def read? (text : String) : Option EdgeChange :=
  match phrase text.toList with
  | "INSERT" :: "\x7b" :: record =>
    match pairs record with
    | ([("_from:", source), ("_to:", target)], ["\x7d", "INTO", collection, "RETURN", "NEW"]) => do
      return .insert collection (← placeholder? source) (← placeholder? target)
    | _ => none
  | "FOR" :: "e" :: "IN" :: collection :: "FILTER" :: condition => do
    let (ends, rest) ← ends? condition
    if rest = ["REMOVE", "e", "IN", collection] then return .remove collection ends else none
  | _ => none

/-! ## Running a change -/

/-- The store after a change, given the values of the bind variables. -/
def run (value : String → Option String) (store : EdgeStore) : EdgeChange → EdgeStore
  | insert collection source target =>
    match value source, value target with
    | some x, some y => Insert.insert ⟨collection, x, y⟩ store
    | _, _ => store
  | remove collection ends => store.filter fun r =>
    ¬ (r.collection = collection ∧ ends.all fun e => value e.2 == some (e.1.of r))

end EdgeChange

/-- The store after the text of a statement is run with bind variables. -/
def runEdgeText (text : String) (bindVars : Dict String Json) (store : EdgeStore) : EdgeStore :=
  match EdgeChange.read? text with
  | some change => change.run (fun name => (Dict.find? bindVars name).bind Json.toString?) store
  | none => store

/-! ## The change of a command -/

/-- What a command changes in edge records. -/
def Aql.Command.edgeChange? : Command → Option EdgeChange
  | insertEdge source target collection => some (.insert collection source.name target.name)
  | removeEdges collection ends => some (.remove collection (ends.map fun e => (e.1, e.2.name)))
  | _ => none

/-- A statement runs the change of its command. -/
theorem Statement.runEdges_eq_change (st : Statement) (store : EdgeStore) :
    st.runEdges store = match st.command.edgeChange? with
      | some change =>
        change.run (fun name => (Dict.find? st.bindVars name).bind Json.toString?) store
      | none => store := by
  unfold runEdges Command.edgeChange?
  cases st.command with
  | removeEdges collection ends =>
    simp only [EdgeChange.run, selects, text?, List.all_map]
    rfl
  | _ => rfl

namespace EdgeChange

theorem placeholder?_slot (slot : Slot) : placeholder? (textOf slot.lexemes) = some slot.name := by
  have hchars := charsOf_slot slot []
  rw [List.append_nil] at hchars
  rw [placeholder?, toList_textOf, hchars]
  simp [charsOf]

/-- An end that is compared with a placeholder. -/
def endTest (e : EdgeEnd × Slot) : List Lexeme :=
  spaced [Var.edge.lexemes ++ [.mark .dot, .word e.1.word], [.mark .equal], e.2.lexemes]

/-- The name that an end of the record `e` is read under. -/
def endName : EdgeEnd → String
  | .source => "e._from"
  | .target => "e._to"

theorem end?_endName (e : EdgeEnd) : end? (endName e) = some e := by
  cases e <;> rfl

theorem phrase_endTest {e : EdgeEnd × Slot} (h : (Part.slot e.2).Contained) :
    phrase (charsOf (endTest e)) = [endName e.1, "==", textOf e.2.lexemes] := by
  have hmember : phrase (charsOf (Var.edge.lexemes ++ [.mark .dot, .word e.1.word])) =
      [endName e.1] := by
    cases e.1 <;> rfl
  have hequal : phrase (charsOf [.mark .equal]) = ["=="] := rfl
  rw [endTest, phrase_spaced, List.flatMap_cons, List.flatMap_cons, List.flatMap_singleton, hmember,
    hequal, phrase_slot h]
  rfl

theorem ends?_last {e : EdgeEnd × Slot} {rest : List String}
    (hrest : ∀ word ∈ rest.head?, word ≠ "AND") :
    ends? (endName e.1 :: "==" :: textOf e.2.lexemes :: rest) = some ([(e.1, e.2.name)], rest) := by
  rw [ends?, end?_endName, placeholder?_slot]
  cases rest with
  | nil => rfl
  | cons word more =>
    have hword : word ≠ "AND" := hrest word rfl
    simp [hword]

theorem ends?_and {e : EdgeEnd × Slot} {rest rest' : List String}
    {others : List (EdgeEnd × String)} (hrest : ends? rest = some (others, rest')) :
    ends? (endName e.1 :: "==" :: textOf e.2.lexemes :: "AND" :: rest) =
      some ((e.1, e.2.name) :: others, rest') := by
  rw [ends?, end?_endName, placeholder?_slot]
  simp [hrest]

/-- The condition of a removal is read as the ends that it selects. -/
theorem ends?_tests {ends : List (EdgeEnd × Slot)} (hne : ends ≠ [])
    (h : ∀ e ∈ ends, (Part.slot e.2).Contained) {rest : List String}
    (hrest : ∀ word ∈ rest.head?, word ≠ "AND") :
    ends? (phrase (charsOf ([Lexeme.mark .blank, .word .andWord, .mark .blank].intercalate
        (ends.map endTest))) ++ rest) = some (ends.map fun e => (e.1, e.2.name), rest) := by
  induction ends with
  | nil => exact absurd rfl hne
  | cons e more ih =>
    obtain ⟨he, hmore⟩ := List.forall_mem_cons.mp h
    cases more with
    | nil =>
      rw [List.map_singleton, List.intercalate_singleton, phrase_endTest he]
      exact ends?_last hrest
    | cons next others =>
      have hlater := ih (List.cons_ne_nil _ _) hmore
      have hchars : charsOf ([Lexeme.mark .blank, .word .andWord, .mark .blank].intercalate
          ((e :: next :: others).map endTest)) =
            charsOf (endTest e) ++ ' ' :: ("AND".toList ++ ' ' ::
              charsOf ([Lexeme.mark .blank, .word .andWord, .mark .blank].intercalate
                ((next :: others).map endTest))) := by
        rw [List.map_cons, List.map_cons, List.intercalate_cons_cons, charsOf_append,
          charsOf_append, List.append_assoc]
        rfl
      have hand : phrase "AND".toList = ["AND"] := rfl
      rw [hchars, phrase_append, phrase_append, phrase_endTest he, hand, List.append_assoc,
        List.append_assoc]
      exact ends?_and hlater

/-! ## Texts of commands -/

theorem phrase_within {w : Word} (hw : w ≠ .breadthFirst) {collection : String}
    (h : (Part.collection collection).Contained) :
    phrase (charsOf (within w collection)) = [w.text, collection] := by
  simp [within, hw, phrase_collection h]

theorem read?_insertEdge {source target : Slot} {collection : String}
    (hsource : (Part.slot source).Contained) (htarget : (Part.slot target).Contained)
    (hcollection : (Part.collection collection).Contained) :
    read? (Command.insertEdge source target collection).text =
      some (.insert collection source.name target.name) := by
  let ends := [(EdgeEnd.source, source), (.target, target)]
  let record := listed (ends.map fun e => spaced [[.word e.1.word, .mark .colon], e.2.lexemes])
  have hcommand : (Command.insertEdge source target collection).lexemes =
      spaced [[.word .insert], spaced [[.mark .openBrace], record, [.mark .closeBrace]],
        within .into collection, spaced [[.word .returnWord], [.word .new]]] := rfl
  have hphrase : phrase (Command.insertEdge source target collection).text.toList =
      "INSERT" :: "\x7b" ::
        (phrase (charsOf record) ++ ["\x7d", "INTO", collection, "RETURN", "NEW"]) := by
    rw [Command.text, toList_textOf, hcommand]
    simp [phrase_within, hcollection, Word.text, Mark.text]
  have hmember : ∀ e : EdgeEnd, IsSolid (charsOf [.word e.word, .mark .colon]) := by
    intro e
    cases e <;> exact ⟨by decide, by decide, by decide⟩
  have hpairs : pairs (phrase (charsOf record) ++ ["\x7d", "INTO", collection, "RETURN", "NEW"]) =
      ([("_from:", textOf source.lexemes), ("_to:", textOf target.lexemes)],
        ["\x7d", "INTO", collection, "RETURN", "NEW"]) := by
    have hfrom : textOf [.word EdgeEnd.source.word, .mark .colon] = "_from:" := by decide
    have hto : textOf [.word EdgeEnd.target.word, .mark .colon] = "_to:" := by decide
    rw [pairs_listed (List.cons_ne_nil _ _), List.map_cons, List.map_singleton, hfrom, hto]
    exact List.forall_mem_cons.mpr ⟨⟨hmember _, hsource.isSolid⟩,
      List.forall_mem_singleton.mpr ⟨hmember _, htarget.isSolid⟩⟩
  rw [read?, hphrase]
  simp only [hpairs, placeholder?_slot]
  rfl

theorem read?_removeEdges {collection : String} {ends : List (EdgeEnd × Slot)} (hne : ends ≠ [])
    (hcollection : (Part.collection collection).Contained)
    (hends : ∀ e ∈ ends, (Part.slot e.2).Contained) :
    read? (Command.removeEdges collection ends).text =
      some (.remove collection (ends.map fun e => (e.1, e.2.name))) := by
  have hcommand : (Command.removeEdges collection ends).lexemes =
      spaced [loop .edge [.name collection], [.word .filter],
        [Lexeme.mark .blank, .word .andWord, .mark .blank].intercalate (ends.map endTest),
        [.word .remove], Var.edge.lexemes, within .inWord collection] := rfl
  have hvar : textOf Var.edge.lexemes = "e" := by decide
  have hphrase : phrase (Command.removeEdges collection ends).text.toList =
      "FOR" :: "e" :: "IN" :: collection :: "FILTER" ::
        (phrase (charsOf ([Lexeme.mark .blank, .word .andWord, .mark .blank].intercalate
          (ends.map endTest))) ++ ["REMOVE", "e", "IN", collection]) := by
    rw [Command.text, toList_textOf, hcommand]
    simp [loop, phrase_within, hcollection, phrase_collection, phrase_var, hvar, Word.text]
  have hlast : ∀ word ∈ ["REMOVE", "e", "IN", collection].head?, word ≠ "AND" := by simp
  rw [read?, hphrase]
  simp [ends?_tests hne hends hlast]

/-- A text says no change if it does not begin like an insertion of a record or a loop over
records. -/
theorem read?_eq_none {text first : String} {rest : List String}
    (h : phrase text.toList = first :: rest)
    (hinsert : first = "INSERT" → rest.head? ≠ some "\x7b")
    (hloop : first = "FOR" → rest.head? ≠ some "e") : read? text = none := by
  rw [read?, h]
  split
  · next heq =>
    obtain ⟨hfirst, rfl⟩ := List.cons.inj heq
    exact absurd rfl (hinsert hfirst)
  · next heq =>
    obtain ⟨hfirst, rfl⟩ := List.cons.inj heq
    exact absurd rfl (hloop hfirst)
  · rfl

/-- The text of a command with a word at its front. -/
theorem phrase_opening {c : Command} {w : Word} {pieces : List (List Lexeme)}
    (hw : w ≠ .breadthFirst) (h : c.lexemes = spaced ([.word w] :: pieces)) :
    phrase c.text.toList = w.text :: pieces.flatMap fun piece => phrase (charsOf piece) := by
  rw [Command.text, toList_textOf, h, phrase_spaced, List.flatMap_cons, phrase_word hw]
  rfl

/-- A reading statement begins with its loop. -/
theorem phrase_read (collection : String) (clauses : List Clause) (result : Result) :
    ∃ rest, phrase (Command.read collection clauses result).text.toList =
      "FOR" :: "doc" :: rest := by
  obtain ⟨more, hmore⟩ : ∃ more, (Command.read collection clauses result).lexemes =
      [.word .forWord, .mark .blank, .head .doc, .mark .blank] ++ more := by
    rw [Command.lexemes]
    cases clauses.flatMap Clause.lines <;> exact ⟨_, List.intercalate_cons_cons⟩
  have hchars : charsOf ([.word .forWord, .mark .blank, .head .doc, .mark .blank] ++ more) =
      "FOR".toList ++ ' ' :: ("doc".toList ++ ' ' :: charsOf more) := rfl
  refine ⟨phrase (charsOf more), ?_⟩
  rw [Command.text, toList_textOf, hmore, hchars, phrase_append, phrase_append]
  rfl

/-- The text of a command says its change. -/
theorem read?_text {c : Command} (h : ∀ p ∈ c.parts, p.Contained)
    (hfilled : ∀ collection, c ≠ .removeEdges collection []) : read? c.text = c.edgeChange? := by
  cases c with
  | read collection clauses result =>
    obtain ⟨rest, hphrase⟩ := phrase_read collection clauses result
    exact read?_eq_none hphrase (by simp) (by simp)
  | readDocument handle =>
    exact read?_eq_none (phrase_opening (w := .returnWord) (by simp) rfl) nofun nofun
  | insertDocument document collection =>
    have hdocument := phrase_slot (h _ List.mem_cons_self)
    have hplaceholder : textOf document.lexemes ≠ "\x7b" := by
      intro hsame
      have hname := placeholder?_slot document
      rw [hsame] at hname
      cases hname
    refine read?_eq_none (phrase_opening (w := .insert) (by simp) rfl) (fun _ => ?_) nofun
    rw [List.flatMap_cons, hdocument]
    simpa using hplaceholder
  | updateDocument key patch collection =>
    exact read?_eq_none (phrase_opening (w := .update) (by simp) rfl) nofun nofun
  | removeDocument key collection =>
    exact read?_eq_none (phrase_opening (w := .remove) (by simp) rfl) nofun nofun
  | insertEdge source target collection =>
    simp only [Command.parts, List.forall_mem_cons] at h
    exact read?_insertEdge h.1 h.2.1 h.2.2.1
  | removeEdges collection ends =>
    rw [Command.parts_removeEdges, List.forall_mem_append, List.forall_mem_append] at h
    obtain ⟨⟨hloop, hends⟩, -⟩ := h
    refine read?_removeEdges (fun hnone => hfilled collection (hnone ▸ rfl)) ?_ fun e he => ?_
    · exact hloop _ (List.mem_cons_of_mem _ List.mem_cons_self)
    · exact hends _ (List.mem_flatMap.mpr ⟨e, he, List.mem_cons_of_mem _ List.mem_cons_self⟩)

example : read? ("FOR e IN edges FILTER e._from == @source AND e._to == @target " ++
      "REMOVE e IN edges") = some (.remove "edges" [(.source, "source"), (.target, "target")]) := by
  decide +kernel

end EdgeChange

/-! ## Texts of mutations -/

/-- No removal that a mutation writes is without a condition. -/
theorem Mapper.Writes.conditional {m : Mapper} {st : Statement} (h : m.Writes st) :
    ∀ collection, st.command ≠ .removeEdges collection [] := by
  intro collection hnone
  cases h with
  | clear _ _ _ _ => cases (Command.removeEdges.inj hnone).2
  | @insertEdge h _ _ _ _ _ =>
    unfold Hop.insertEdge at hnone
    split at hnone
    cases hnone
  | detach _ _ => cases (Command.removeEdges.inj hnone).2
  | _ => cases hnone

/-- A statement of a mutation does to a store what its text says. -/
theorem Mapper.Writes.runEdges_eq {m : Mapper} (hm : m.Resolved) {st : Statement} (h : m.Writes st)
    (store : EdgeStore) : st.runEdges store = runEdgeText st.query st.bindVars store := by
  have hcontained : ∀ p ∈ st.command.parts, p.Contained := by
    cases h.complete hm with
    | closed _ hcontained => exact hcontained
  rw [st.runEdges_eq_change, runEdgeText, Statement.query,
    EdgeChange.read?_text hcontained h.conditional]

/-- Whatever a mutation makes, running its statements is running their texts with their bind
variables. -/
theorem Mutation.runEdges_eq {m : Mapper} (hm : m.Resolved) {mutation : Mutation}
    {statements : List Statement} (hrun : mutation.statements m = .ok statements)
    (store : EdgeStore) : runEdges statements store =
      statements.foldl (fun store st => runEdgeText st.query st.bindVars store) store := by
  have hwrites := Mutation.writes hm hrun
  clear hrun
  induction statements generalizing store with
  | nil => rfl
  | cons st rest ih =>
    obtain ⟨hst, hrest⟩ := List.forall_mem_cons.mp hwrites
    rw [runEdges_cons, List.foldl_cons, hst.runEdges_eq hm, ih _ hrest]

end GraphMapper
