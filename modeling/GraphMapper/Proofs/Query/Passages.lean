import GraphMapper.Proofs.Aql.Words
import GraphMapper.Proofs.Query.FilterText
import GraphMapper.Proofs.Query.Numbering
import Mathlib.Data.List.SplitBy

/-!
# The text of loops, filters and first matches

What a statement returns is given by its clauses (`Statement.rowsOf`), and a database has the text
alone. A text is read passage by passage (`Passage.readAll?`). Lines that are indented, and one
that closes a parenthesis, belong to the line above them. A loop shows its variable, its depth,
where it starts and the edges that it follows; a filter shows a formula; a first match shows the
loops and filters inside of it, in their order, and the columns of its first row. Lines of other
clauses are kept as they are.

The text of a query's statement gives the passages of its clauses
(`Mapper.Resolved.statement_passages`).
-/

namespace GraphMapper

open Outcome Aql

/-! ## Passages -/

/-- A loop along edges or a filter, as it is read. -/
inductive StepText where
  | filter (condition : Formula)
  /-- Whether each document is reached once, the nearest ones first, is an option of a loop. -/
  | loop (var : String) (depth : Nat) (start : String) (edges : List (Direction × String))
      (breadthFirst : Bool)

/-- A part of a statement text that stands by itself. -/
inductive Passage where
  /-- The loop over a collection. -/
  | root (collection : String)
  | step (s : StepText)
  /-- The columns of the first row of some steps. -/
  | first (steps : List StepText) (columns : List (String × String))
  | other (line : String)

/-! ## Reading lines -/

namespace StepText

/-- The depth of a range that begins at one. -/
def depth? (range : String) : Option Nat :=
  match range.toList with
  | '1' :: '.' :: '.' :: depth => (String.ofList depth).toNat?
  | _ => none

def edge? : String × String → Option (Direction × String)
  | ("OUTBOUND", collection) => some (.outbound, collection)
  | ("INBOUND", collection) => some (.inbound, collection)
  | _ => none

/-- Whether there are options behind a loop. There is one set of them. -/
def breadthFirst? (words : List String) : Option Bool :=
  if words = [] then some false
  else if words = "OPTIONS" :: phrase Word.breadthFirst.text.toList then some true
  else none

/-- What a line shows that begins with `FILTER` or with `FOR`. -/
def read? (line : List Char) : Option StepText :=
  match phrase line with
  | "FILTER" :: _ => (Formula.parse? (String.ofList (line.drop 7))).map .filter
  | "FOR" :: var :: "IN" :: range :: direction :: start :: rest => do
    let (edges, options) := pairs (direction :: rest)
    return .loop var (← depth? range) start (← edges.mapM edge?) (← breadthFirst? options)
  | _ => none

end StepText

namespace Passage

/-- The columns of a row, or none if there is just a row. -/
def columns? : List String → Option (List (String × String))
  | ["RETURN", "true"] => some []
  | "RETURN" :: "\x7b" :: row =>
    match pairs row with
    | (columns, ["\x7d"]) => columns.mapM fun c => do return (← before? ':' c.1, c.2)
    | _ => none
  | _ => none

/-- What stands between the opening and the end of a first match. -/
def first? (inner : List (List Char)) : Option Passage :=
  match inner.reverse with
  | close :: row :: limit :: steps =>
    if close = ")".toList ∧ limit = "  LIMIT 1".toList then do
      let steps ← steps.reverse.mapM fun line => StepText.read? (line.drop 2)
      return .first steps (← columns? (phrase row))
    else none
  | _ => none

/-- A line with no others that belong to it. -/
def ofLine? (line : List Char) : Option Passage :=
  match phrase line with
  | ["FOR", "doc", "IN", collection] => some (.root collection)
  | "FOR" :: _ => (StepText.read? line).map .step
  | "FILTER" :: _ => (StepText.read? line).map .step
  | _ => some (.other (String.ofList line))

/-- A line with those that belong to it. -/
def read? : List (List Char) → Option Passage
  | [] => none
  | [line] => ofLine? line
  | opening :: inner => if opening = "LET hit = FIRST(".toList then first? inner else none

/-- Whether a line belongs to the one above it. -/
def continues (line : List Char) : Bool := line.head? == some ' ' || line == [')']

/-- Lines with those that belong to them. -/
def sections (lines : List (List Char)) : List (List (List Char)) :=
  lines.splitBy fun _ line => continues line

/-- The passages of a text. -/
def readAll? (text : String) : Option (List Passage) :=
  (sections (Text.splitChars '\n' text.toList)).mapM read?

end Passage

/-! ## Clauses as passages -/

/-- A column of a first match as it is read: its name and its expression. -/
def Passage.column (n : Nat) (e : Expr) : String × String :=
  (textOf (columnLexemes n), textOf e.lexemes)

namespace Aql

def Edges.all (e : Edges) : List (Direction × String) := (e.direction, e.collection) :: e.others

/-- A step as it is read. -/
def Step.passage : Step → StepText
  | filter test => .filter test.formula
  | traverse index depth start edges =>
    .loop (Var.step index).text depth start.text edges.all
      (!(edges.others.isEmpty && depth ≤ 1))

/-- A clause as it is read. A first match is one passage, and that it exists is a filter behind
it. -/
def Clause.passages : Clause → List Passage
  | step s => [.step s.passage]
  | firstMatch steps columns =>
    [.first (steps.map Step.passage) (columns.mapIdx Passage.column),
      .step (.filter (.relation (.field "hit" []) .notEqual .null))]
  | c => c.lines.map fun line => .other (textOf line)

/-- The passages of a reading statement. -/
def Command.passages : Command → List Passage
  | read collection clauses result =>
    .root collection :: clauses.flatMap Clause.passages ++ [.other (textOf result.line)]
  | _ => []

end Aql

/-! ## Steps are read -/

namespace Aql

theorem directionWord_ne (d : Direction) : directionWord d ≠ .breadthFirst := by
  cases d <;> simp [directionWord]

theorem phrase_loop (v : Var) (values : List Lexeme) :
    phrase (charsOf (loop v values)) = "FOR" :: v.text :: "IN" :: phrase (charsOf values) := by
  simp [loop, phrase_var, Var.text, Word.text]

/-- An edge collection behind its direction. -/
def edgePiece (o : Direction × String) : List Lexeme :=
  spaced [[.word (directionWord o.1)], [.name o.2]]

theorem phrase_edgePiece (o : Direction × String) (more : List Lexeme) :
    phrase (charsOf (edgePiece o ++ more)) =
      (directionWord o.1).text :: phrase (charsOf (.name o.2 :: more)) := by
  have hpiece : edgePiece o ++ more = spaced [[.word (directionWord o.1)], .name o.2 :: more] := by
    rw [edgePiece, spaced_pair, spaced_pair, List.append_assoc]
    rfl
  rw [hpiece, phrase_spaced, List.flatMap_cons, List.flatMap_singleton,
    phrase_word (directionWord_ne _), List.singleton_append]

/-- With its direction in front, the first collection stands like the others. -/
theorem phrase_collections (e : Edges) :
    (directionWord e.direction).text :: phrase (charsOf e.collections) =
      phrase (charsOf (listed (e.all.map edgePiece))) := by
  obtain ⟨direction, collection, others⟩ := e
  cases others with
  | nil =>
    have hpiece := phrase_edgePiece (direction, collection) []
    rw [List.append_nil] at hpiece
    exact hpiece.symm
  | cons next more =>
    have hcollections : Edges.collections ⟨direction, collection, next :: more⟩ =
        listed ([.name collection] :: edgePiece next :: more.map edgePiece) := rfl
    rw [hcollections, phrase_listed_cons, Edges.all, List.map_cons, List.map_cons,
      phrase_listed_cons, phrase_edgePiece]
    rfl

/-- The collections of a path are read with their directions. -/
theorem pairs_collections {e : Edges} (h : ∀ o ∈ e.all, (Part.collection o.2).Contained)
    (rest : List String) :
    pairs ((directionWord e.direction).text :: (phrase (charsOf e.collections) ++ rest)) =
      (e.all.map fun o => ((directionWord o.1).text, o.2), rest) := by
  have hword : ∀ d : Direction, IsSolid (charsOf [.word (directionWord d)]) := by
    intro d
    cases d <;> exact ⟨by decide, by decide, by decide⟩
  have hne : e.all ≠ [] := List.cons_ne_nil _ _
  have hlisted : e.all.map edgePiece =
      e.all.map fun o => spaced [[.word (directionWord o.1)], [.name o.2]] := rfl
  rw [← List.cons_append, phrase_collections, hlisted, pairs_listed hne]
  · simp [Lexeme.text]
  · exact fun o ho => ⟨hword o.1, Part.Contained.isSolid (h o ho)⟩

/-- A range that begins at one. -/
def rangePiece (depth : Nat) : List Lexeme := [.number 1, .mark .range, .number depth]

theorem charsOf_rangePiece (depth : Nat) :
    charsOf (rangePiece depth) = '1' :: '.' :: '.' :: charsOf [.number depth] := rfl

theorem phrase_rangePiece (depth : Nat) :
    phrase (charsOf (rangePiece depth)) = [textOf (rangePiece depth)] := by
  have hnumber := isSolid_number depth
  refine phrase_solid ⟨List.cons_ne_nil _ _, ?_, ?_⟩
  · simp [charsOf_rangePiece, hnumber.blank]
  · simp [charsOf_rangePiece, hnumber.comma]

theorem phrase_path (e : Edges) (depth : Nat) (start : Var) :
    phrase (charsOf (e.path depth start)) = textOf (rangePiece depth) ::
      (directionWord e.direction).text :: start.text :: phrase (charsOf e.collections) := by
  have hpath : e.path depth start = spaced [rangePiece depth, [.word (directionWord e.direction)],
      start.lexemes, e.collections] := rfl
  simp [hpath, phrase_rangePiece, directionWord_ne, phrase_var, Var.text]

/-- The words of the options of a loop. -/
def Edges.options (e : Edges) (depth : Nat) : List String :=
  if e.others.isEmpty && depth ≤ 1 then [] else "OPTIONS" :: phrase Word.breadthFirst.text.toList

theorem phrase_traverse (index depth : Nat) (start : Var) (e : Edges) :
    phrase (charsOf (Step.traverse index depth start e).line) =
      "FOR" :: (Var.step index).text :: "IN" :: textOf (rangePiece depth) ::
        (directionWord e.direction).text :: start.text ::
          (phrase (charsOf e.collections) ++ e.options depth) := by
  have hbreadth : charsOf [.word .breadthFirst] = Word.breadthFirst.text.toList := by
    simp [charsOf, Lexeme.text]
  rw [Step.line, Edges.options]
  split
  · rw [phrase_loop, phrase_path, List.append_nil]
  · simp [phrase_loop, phrase_path, hbreadth, Word.text]

end Aql

namespace StepText

theorem depth?_rangePiece (depth : Nat) : depth? (textOf (rangePiece depth)) = some depth := by
  rw [depth?, toList_textOf, charsOf_rangePiece]
  exact toNat?_number depth

theorem edge?_directionWord (o : Direction × String) :
    edge? ((directionWord o.1).text, o.2) = some o := by
  obtain ⟨direction, collection⟩ := o
  cases direction <;> rfl

theorem breadthFirst?_options (e : Edges) (depth : Nat) :
    breadthFirst? (e.options depth) = some (!(e.others.isEmpty && depth ≤ 1)) := by
  unfold Edges.options
  cases e.others.isEmpty && depth ≤ 1 <;> rfl

/-- A step of contained parts is read as it is, when no group in it is empty. -/
theorem read?_line {s : Step} (hcontained : ∀ p ∈ s.parts, p.Contained)
    (hfilled : ∀ test ∈ s.test?, test.Filled) : read? (charsOf s.line) = some s.passage := by
  cases s with
  | filter test =>
    have hphrase : phrase (charsOf (Step.filter test).line) =
        "FILTER" :: phrase (charsOf test.lexemes) := by
      simp [Step.line, Word.text]
    have hcondition : (charsOf (Step.filter test).line).drop 7 = charsOf test.lexemes := by
      rw [Step.line, spaced_pair]
      rfl
    simp only [read?, hphrase]
    rw [hcondition, ofList_charsOf, Test.parse?_text (hfilled test rfl) hcontained]
    rfl
  | traverse index depth start e =>
    have hedges : ∀ o ∈ e.all, (Part.collection o.2).Contained := by
      intro o ho
      rw [Step.parts, Edges.parts] at hcontained
      rcases List.mem_cons.mp ho with rfl | ho
      · exact hcontained _ (by simp)
      · refine hcontained _ (List.mem_cons_of_mem _ (List.mem_cons_of_mem _ ?_))
        exact List.mem_cons_of_mem _ (List.mem_map_of_mem ho)
    have hread : (e.all.map fun o => ((directionWord o.1).text, o.2)).mapM edge? = some e.all := by
      rw [List.mapM_map]
      exact (mapM_eq_some fun o _ => edge?_directionWord o).trans (congrArg some e.all.map_id)
    simp only [read?, phrase_traverse, pairs_collections hedges, depth?_rangePiece, hread,
      breadthFirst?_options]
    rfl

end StepText

/-! ## First matches are read -/

namespace Passage

/-- The name of a column with its colon is one word. -/
theorem isSolid_columnName (n : Nat) : IsSolid (charsOf (columnLexemes n ++ [.mark .colon])) := by
  have hnumber := isSolid_number n
  have hchars : charsOf (columnLexemes n ++ [.mark .colon]) =
      'v' :: (charsOf [.number n] ++ [':']) := by
    simp [charsOf, columnLexemes, Lexeme.text, Head.text, Mark.text]
  rw [hchars]
  exact ⟨List.cons_ne_nil _ _, by simp [hnumber.blank], by simp [hnumber.comma]⟩

theorem textOf_columnName (n : Nat) : textOf (columnLexemes n ++ [.mark .colon]) =
    textOf (columnLexemes n) ++ String.ofList [':'] := by
  rw [← ofList_charsOf, ← ofList_charsOf, charsOf_append, String.ofList_append]
  rfl

theorem columns?_row {columns : List Expr} (h : ∀ e ∈ columns, (Part.expr e).Contained) :
    columns? (phrase (charsOf (spaced [[.word .returnWord], columnsRow columns]))) =
      some (columns.mapIdx column) := by
  cases columns with
  | nil => rfl
  | cons e rest =>
    let numbered := (e :: rest).zipIdx
    let row := listed (numbered.map fun c =>
      spaced [columnLexemes c.2 ++ [.mark .colon], c.1.lexemes])
    have hrow : columnsRow (e :: rest) = spaced [[.mark .openBrace], row, [.mark .closeBrace]] := by
      rw [columnsRow, if_neg (by simp), List.mapIdx_eq_zipIdx_map]
      rfl
    have hphrase : phrase (charsOf (spaced [[.word .returnWord], columnsRow (e :: rest)])) =
        "RETURN" :: "\x7b" :: (phrase (charsOf row) ++ ["\x7d"]) := by
      rw [hrow]
      simp [Word.text, Mark.text]
    have hpairs : pairs (phrase (charsOf row) ++ ["\x7d"]) =
        (numbered.map fun c => (textOf (columnLexemes c.2 ++ [.mark .colon]), textOf c.1.lexemes),
          ["\x7d"]) := by
      refine pairs_listed (by simp [numbered]) (fun c hc => ⟨isSolid_columnName c.2, ?_⟩) _
      exact Part.Contained.isSolid (h _ (List.fst_mem_of_mem_zipIdx hc))
    have hcolumns : (numbered.map fun c => (textOf (columnLexemes c.2 ++ [.mark .colon]),
        textOf c.1.lexemes)).mapM (fun c => do return (← before? ':' c.1, c.2)) =
          some ((e :: rest).mapIdx column) := by
      rw [List.mapM_map, List.mapIdx_eq_zipIdx_map]
      refine mapM_eq_some fun c _ => ?_
      rw [Function.comp_apply, textOf_columnName, before?_append]
      rfl
    simp only [hphrase, columns?, hpairs]
    exact hcolumns

/-- What stands inside of a first match, and its end. -/
def innerLines (steps : List Step) (columns : List Expr) : List (List Lexeme) :=
  (steps.map Step.line ++ [spaced [[.word .limit], [.number 1]],
    spaced [[.word .returnWord], columnsRow columns]]).map (Lexeme.mark .indent :: ·) ++
      [[.mark .closeParen]]

/-- The row is behind the limit and in front of the end. -/
theorem first?_inner {steps : List Step} {columns : List Expr}
    (hsteps : ∀ s ∈ steps, StepText.read? (charsOf s.line) = some s.passage)
    (hcolumns : ∀ e ∈ columns, (Part.expr e).Contained) :
    first? ((innerLines steps columns).map charsOf) =
      some (.first (steps.map Step.passage) (columns.mapIdx column)) := by
  let indented (line : List Lexeme) : List Char := charsOf (.mark .indent :: line)
  have hreverse : ((innerLines steps columns).map charsOf).reverse =
      ")".toList :: indented (spaced [[.word .returnWord], columnsRow columns]) ::
        "  LIMIT 1".toList :: (steps.map fun s => indented s.line).reverse := by
    have hlimit : charsOf (.mark .indent :: spaced [[.word .limit], [.number 1]]) =
        "  LIMIT 1".toList := by decide
    simp [innerLines, hlimit, indented]
    rfl
  have hread : (steps.map fun s => indented s.line).mapM
      (fun line => StepText.read? (line.drop 2)) = some (steps.map Step.passage) := by
    rw [List.mapM_map]
    exact mapM_eq_some hsteps
  have hrow : columns? (phrase (indented (spaced [[.word .returnWord], columnsRow columns]))) =
      some (columns.mapIdx column) := columns?_row hcolumns
  simp only [first?, hreverse, List.reverse_reverse, hread, hrow]
  rfl

/-! ## Sections -/

theorem sections_append {ls ls' : List (List Char)}
    (h : ∀ line ∈ ls'.head?, continues line = false) :
    sections (ls ++ ls') = sections ls ++ sections ls' :=
  List.splitBy_append fun _ _ => h

/-- A line with lines that belong to it. -/
theorem sections_cons {line : List Char} {ls : List (List Char)}
    (h : ∀ line ∈ ls, continues line = true) : sections (line :: ls) = [line :: ls] := by
  refine List.splitBy_of_isChain (List.cons_ne_nil _ _) ?_
  induction ls generalizing line with
  | nil => exact .singleton _
  | cons next rest ih =>
    obtain ⟨hnext, hrest⟩ := List.forall_mem_cons.mp h
    exact .cons_cons hnext (ih hrest)

/-! ## Single lines -/

theorem phrase_of_opens {w : Word} (hw : w ≠ .breadthFirst) {line : List Lexeme}
    (h : Opens w line) : ∃ rest, phrase (charsOf line) = w.text :: rest := by
  obtain ⟨more, rfl⟩ := h
  have hchars : charsOf (.word w :: .mark .blank :: more) =
      charsOf [.word w] ++ ' ' :: charsOf more := by
    simp [charsOf, Lexeme.text, Mark.text]
  rw [hchars, phrase_append, phrase_word hw]
  exact ⟨_, rfl⟩

theorem continues_of_opens {w : Word} {line : List Lexeme} (h : Opens w line) :
    continues (charsOf line) = false := by
  obtain ⟨more, rfl⟩ := h
  cases w <;> rfl

theorem ofLine?_root {collection : String} (h : (Part.collection collection).Contained) :
    ofLine? (charsOf (loop .doc [.name collection])) = some (.root collection) := by
  have hdoc : Var.doc.text = "doc" := by decide
  rw [ofLine?, phrase_loop, phrase_collection h, hdoc]
  rfl

/-- A line of a step is read as the step. -/
theorem ofLine?_step (s : Step) :
    ofLine? (charsOf s.line) = (StepText.read? (charsOf s.line)).map .step := by
  cases s with
  | filter test =>
    have hopens : Opens .filter (Step.filter test).line := opens_spaced _ _ _
    obtain ⟨rest, hphrase⟩ := phrase_of_opens (by simp) hopens
    rw [ofLine?, hphrase]
    rfl
  | traverse index depth start e =>
    rw [ofLine?, phrase_traverse]
    split
    · next heq => simp at heq
    · rfl
    · rfl
    · next hfor _ => exact absurd rfl (hfor _)

/-- A line that neither loops nor filters is kept. -/
theorem ofLine?_other {w : Word} (hw : w ∈ [.letWord, .collect, .sort, .limit, .returnWord])
    {line : List Lexeme} (h : Opens w line) :
    ofLine? (charsOf line) = some (.other (textOf line)) := by
  have hne : w ≠ .breadthFirst := by
    rintro rfl
    simp at hw
  obtain ⟨rest, hphrase⟩ := phrase_of_opens hne h
  rw [ofLine?, hphrase, ofList_charsOf]
  simp only [List.mem_cons, List.not_mem_nil, or_false] at hw
  rcases hw with rfl | rfl | rfl | rfl | rfl <;> rfl

/-! ## Clauses and statements -/

/-- The lines are read as these passages. -/
def Reads (lines : List (List Lexeme)) (passages : List Passage) : Prop :=
  (sections (lines.map charsOf)).mapM read? = some passages

theorem Reads.append {first rest : List (List Lexeme)} {ps ps' : List Passage} (h : Reads first ps)
    (h' : Reads rest ps') (hrest : ∀ line ∈ rest.head?, continues (charsOf line) = false) :
    Reads (first ++ rest) (ps ++ ps') := by
  have hhead : ∀ line ∈ (rest.map charsOf).head?, continues line = false := by
    rw [List.head?_map]
    simpa using hrest
  rw [Reads] at h h' ⊢
  rw [List.map_append, sections_append hhead, List.mapM_append, h, h']
  rfl

theorem Reads.line {line : List Lexeme} {p : Passage} (h : ofLine? (charsOf line) = some p) :
    Reads [line] [p] := by
  have hsection : sections [charsOf line] = [[charsOf line]] :=
    sections_cons (List.forall_mem_nil _)
  rw [Reads, List.map_singleton, hsection, List.mapM_cons, read?, h]
  rfl

/-- A step of contained parts is read, when no group in it is empty. -/
theorem Reads.step {s : Step} (hcontained : ∀ p ∈ s.parts, p.Contained)
    (hfilled : ∀ test ∈ s.test?, test.Filled) : Reads [s.line] [.step s.passage] := by
  refine .line ?_
  rw [ofLine?_step, StepText.read?_line hcontained hfilled]
  rfl

/-- The opening of a first match is read with what stands inside of it. -/
theorem Reads.first {steps : List Step} {columns : List Expr}
    (hsteps : ∀ s ∈ steps, StepText.read? (charsOf s.line) = some s.passage)
    (hcolumns : ∀ e ∈ columns, (Part.expr e).Contained) :
    Reads (spaced [[.word .letWord], assignment .hit [.word .first, .mark .openParen]] ::
      innerLines steps columns) [.first (steps.map Step.passage) (columns.mapIdx column)] := by
  have hcontinues : ∀ line ∈ (innerLines steps columns).map charsOf, continues line = true := by
    refine List.forall_mem_map.mpr (List.forall_mem_append.mpr ⟨?_, ?_⟩)
    · exact List.forall_mem_map.mpr fun line _ => rfl
    · exact List.forall_mem_singleton.mpr rfl
  have hread : ∀ inner, inner ≠ [] → read? ("LET hit = FIRST(".toList :: inner) = first? inner := by
    intro inner hne
    cases inner with
    | nil => exact absurd rfl hne
    | cons line rest => simp [read?]
  have hopening : charsOf (spaced [[.word .letWord],
      assignment .hit [.word .first, .mark .openParen]]) = "LET hit = FIRST(".toList := by decide
  rw [Reads, List.map_cons, sections_cons hcontinues, hopening, List.mapM_cons,
    hread _ (by simp [innerLines]), first?_inner hsteps hcolumns]
  rfl

/-- That there is a first match, as a filter. -/
def hitExists : Step := .filter (.isNull (.field .hit []) true)

theorem Reads.hitExists :
    Reads [hitExists.line] [.step (.filter (.relation (.field "hit" []) .notEqual .null))] := by
  have hhit : Var.hit.text = "hit" := by decide
  have hpassage : Passage.hitExists.passage =
      .filter (.relation (.field "hit" []) .notEqual .null) := by
    rw [Passage.hitExists, Step.passage, Test.formula, Expr.formula, hhit]
    rfl
  rw [← hpassage]
  refine .step (List.forall_mem_singleton.mpr (.expr (List.forall_mem_nil _))) ?_
  rintro test ⟨⟩
  trivial

/-- The lines of a first match. -/
theorem lines_firstMatch (steps : List Step) (columns : List Expr) :
    (Clause.firstMatch steps columns).lines =
      (spaced [[.word .letWord], assignment .hit [.word .first, .mark .openParen]] ::
        innerLines steps columns) ++ [hitExists.line] := by
  simp only [Clause.lines, innerLines, List.append_assoc, List.cons_append, List.nil_append]
  rfl

/-- A clause of contained parts is read, when no group in it is empty. -/
theorem Reads.clause {c : Clause} (hcontained : ∀ p ∈ c.parts, p.Contained)
    (hfilled : ∀ test ∈ c.tests, test.Filled) : Reads c.lines c.passages := by
  cases c with
  | step s => exact .step hcontained (by simpa [Clause.tests] using hfilled)
  | firstMatch steps columns =>
    rw [Clause.parts, List.cons_append, List.forall_mem_cons, List.append_assoc,
      List.forall_mem_append, List.forall_mem_append] at hcontained
    obtain ⟨-, hsteps, hcolumns, -⟩ := hcontained
    rw [lines_firstMatch]
    refine (Reads.first (fun s hs => StepText.read?_line ?_ ?_) ?_).append .hitExists ?_
    · exact fun p hp => hsteps p (List.mem_flatMap.mpr ⟨s, hs, hp⟩)
    · exact fun test htest => hfilled test (List.mem_filterMap.mpr ⟨s, hs, htest⟩)
    · exact fun e he => hcolumns _ (List.mem_map_of_mem he)
    · rintro line ⟨⟩
      exact continues_of_opens (opens_spaced .filter _ [])
  | neighbours index cardinality edges =>
    exact .line (ofLine?_other (w := .letWord) (by simp) (opens_spaced _ _ _))
  | collect groups totals =>
    refine .line (ofLine?_other (w := .collect) (by simp) ?_)
    split <;> exact opens_spaced _ _ _
  | sort keys => exact .line (ofLine?_other (w := .sort) (by simp) (opens_spaced _ _ _))
  | limit offset count => exact .line (ofLine?_other (w := .limit) (by simp) (opens_spaced _ _ _))

/-- The first line of a clause begins with a word. -/
theorem opens_head (c : Clause) : ∃ w line rest, c.lines = line :: rest ∧ Opens w line := by
  cases c with
  | step s =>
    rcases s.opens_line with h | h
    · exact ⟨_, _, _, rfl, h⟩
    · exact ⟨_, _, _, rfl, h⟩
  | collect groups totals =>
    refine ⟨.collect, _, _, rfl, ?_⟩
    split <;> exact opens_spaced _ _ _
  | _ => exact ⟨_, _, _, rfl, opens_spaced _ _ _⟩

/-- Neither the first line of clauses nor the result behind them belongs to a line above. -/
theorem continues_head (clauses : List Clause) (result : Result) :
    ∀ line ∈ (clauses.flatMap Clause.lines ++ [result.line]).head?,
      continues (charsOf line) = false := by
  cases clauses with
  | nil =>
    rintro line ⟨⟩
    exact continues_of_opens result.opens_line
  | cons c rest =>
    obtain ⟨w, line, more, hlines, hopens⟩ := opens_head c
    rw [List.flatMap_cons, hlines]
    rintro line ⟨⟩
    exact continues_of_opens hopens

/-- Clauses with the result behind them are read one after the other. -/
theorem Reads.clauses {clauses : List Clause} (result : Result)
    (hcontained : ∀ c ∈ clauses, ∀ p ∈ c.parts, p.Contained)
    (hfilled : ∀ c ∈ clauses, ∀ test ∈ c.tests, test.Filled) :
    Reads (clauses.flatMap Clause.lines ++ [result.line])
      (clauses.flatMap Clause.passages ++ [.other (textOf result.line)]) := by
  induction clauses with
  | nil => exact .line (ofLine?_other (w := .returnWord) (by simp) result.opens_line)
  | cons c rest ih =>
    rw [List.forall_mem_cons] at hcontained hfilled
    rw [List.flatMap_cons, List.flatMap_cons, List.append_assoc, List.append_assoc]
    exact (Reads.clause hcontained.1 hfilled.1).append (ih hcontained.2 hfilled.2)
      (continues_head rest result)

end Passage

/-- The text of a reading statement of contained parts is read as its loop, its clauses and its
result, when no group in its conditions is empty. -/
theorem Aql.Command.readAll?_text {collection : String} {clauses : List Clause} {result : Result}
    (hcontained : ∀ p ∈ (read collection clauses result).parts, p.Contained)
    (hfilled : ∀ test ∈ clauses.flatMap Clause.tests, test.Filled) :
    Passage.readAll? (read collection clauses result).text =
      some (read collection clauses result).passages := by
  rw [Passage.readAll?, Command.splitChars_text hcontained]
  rw [Command.parts, List.cons_append, List.cons_append, List.forall_mem_cons, List.forall_mem_cons,
    List.forall_mem_append] at hcontained
  obtain ⟨-, hcollection, hclauses, -⟩ := hcontained
  have hroot : Passage.Reads [loop .doc [.name collection]] [.root collection] :=
    .line (Passage.ofLine?_root hcollection)
  refine hroot.append (.clauses result (fun c hc p hp => ?_) fun c hc test htest => ?_)
    (Passage.continues_head clauses result)
  · exact hclauses p (List.mem_flatMap.mpr ⟨c, hc, hp⟩)
  · exact hfilled test (List.mem_flatMap.mpr ⟨c, hc, htest⟩)

/-! ## Statements of queries -/

namespace Predicate

mutual
/-- A condition that says what a predicate does has no empty group if the predicate has none. -/
theorem filled_of_written {values : Dict String Json} : (p : Predicate) → {t : Test} →
    p.Written values t → p.Filled → t.Filled
  | .compare f comparison _, _, h, _ => by
    cases h <;> exact comparison.filled_test f _
  | .isNull _ _, _, .isNull, _ => trivial
  | .all members, _, .all h, hp => membersFilled_of_written members h hp
  | .any members, _, .any h, hp => membersFilled_of_written members h hp
  | .not member, .not t, .not h, hp => by
    have hmember : t.Filled := filled_of_written member h hp
    exact hmember
theorem membersFilled_of_written {values : Dict String Json} : (ps : List Predicate) →
    {ts : List Test} → List.Forall₂ (Written values) ps ts → ps ≠ [] ∧ MembersFilled ps →
    ts ≠ [] ∧ Test.MembersFilled ts
  | [], _, _, hps => absurd rfl hps.1
  | [p], _, .cons h .nil, hps =>
    ⟨List.cons_ne_nil _ _, filled_of_written p h hps.2.1, trivial⟩
  | p :: next :: rest, _, .cons h hrest, hps =>
    ⟨List.cons_ne_nil _ _, filled_of_written p h hps.2.1,
      (membersFilled_of_written (next :: rest) hrest ⟨List.cons_ne_nil _ _, hps.2.2⟩).2⟩
end

end Predicate

/-- The text of a query's statement is read as the passages of its clauses: the loop over the
collection of the query, the loops, filters and first match behind it, and the result. -/
theorem Mapper.Resolved.statement_passages {builder m : Mapper} (hb : builder.Resolved)
    (hm : m.Resolved) {entity : String} {ops : List Operation} {q : Query} {st : Statement}
    (hq : builder.query entity ops = .ok q) (h : m.statement q = .ok st) :
    ∃ clauses result, st.command = .read q.collection clauses result ∧
      Passage.readAll? st.query = some st.command.passages := by
  obtain ⟨clauses, result, hcommand, hwritten⟩ := statement_written h
  have hcontained := statement_parts_contained hm (hb.query_named hq) h
  have hfilled : ∀ test ∈ clauses.flatMap Clause.tests, test.Filled := by
    intro test htest
    obtain ⟨p, hp, hpwritten⟩ := exists_of_forall₂ hwritten.flip htest
    obtain ⟨s, hs, hfilter⟩ := List.mem_filterMap.mp hp
    cases s with
    | filter p =>
      obtain rfl := Option.some.inj hfilter
      exact p.filled_of_written hpwritten (query_filled hq (q.mem_split.mp hs))
    | _ => cases hfilter
  refine ⟨clauses, result, hcommand, ?_⟩
  rw [Statement.query, hcommand] at *
  exact Command.readAll?_text hcontained hfilled

end GraphMapper
