import GraphMapper.Aql.Text
import Mathlib.Data.List.Forall2

/-!
# Reading the text of a statement

A statement text is written from parts (variables, expressions, slots, collections and keys) with
words, numbers and marks between them. `Command.parts` lists the parts of a statement in the order of
its text. A `Reader` draws a list out of lexemes and passes over what stands between parts, and what
it reads in a statement is what it reads in the parts, one after the other (`Reader.read_command`).

A part is always followed by a mark or by the end of the text (`Ends`), so a reader may rely on where
the part stops.
-/

namespace GraphMapper.Aql

/-! ## Parts -/

/-- What a statement text is written from. -/
inductive Part where
  | var (v : Var)
  | expr (e : Expr)
  | slot (s : Slot)
  | collection (name : String)
  | key (name : String)

def Part.lexemes : Part → List Lexeme
  | var v => v.lexemes
  | expr e => e.lexemes
  | slot s => s.lexemes
  | collection name => [.name name]
  | key name => [.key name]

namespace Test

mutual
def parts : Test → List Part
  | relation left _ right => [.expr left, .slot right]
  | memberOf field values => [.expr field, .slot values]
  | hasMember field value => [.slot value, .expr field]
  | contains field part => [.expr field, .slot part]
  | startsWith field start => [.expr field, .slot start]
  | isNull field _ => [.expr field]
  | all members => memberParts members
  | any members => memberParts members
  | not member => member.parts
def memberParts : List Test → List Part
  | [] => []
  | t :: rest => t.parts ++ memberParts rest
end

end Test

/-- A path along edges that starts at a variable. -/
def Edges.parts (e : Edges) (start : Var) : List Part :=
  .var start :: .collection e.collection :: e.others.map fun o => .collection o.2

def Step.parts : Step → List Part
  | filter test => test.parts
  | traverse index _ start edges => .var (.step index) :: edges.parts start

def Clause.parts : Clause → List Part
  | step s => s.parts
  | firstMatch steps columns =>
    .var .hit :: (steps.flatMap Step.parts ++ columns.map .expr) ++ [.var .hit]
  | neighbours index _ edges =>
    .var (.included index) :: .var (.neighbour index) :: edges.parts .doc ++
      [.var (.neighbour index)]
  | collect groups totals =>
    (groups.mapIdx fun n e => [Part.var (.group n), .expr e]).flatten ++
      (totals.mapIdx fun n t => [Part.var (.total n), .expr t.2]).flatten
  | sort keys => keys.map fun k => .expr k.1
  | limit _ _ => []

def entryParts (entries : List (String × Expr)) : List Part :=
  entries.flatMap fun e => [.key e.1, .expr e.2]

def Result.parts : Result → List Part
  | document => [.var .doc]
  | merged entries => .var .doc :: entryParts entries
  | object entries => entryParts entries

/-- The parts of a statement in the order of its text. -/
def Command.parts : Command → List Part
  | read collection clauses result =>
    .var .doc :: .collection collection :: clauses.flatMap Clause.parts ++ result.parts
  | readDocument handle => [.slot handle]
  | insertDocument document collection => [.slot document, .collection collection]
  | updateDocument key patch collection => [.slot key, .slot patch, .collection collection]
  | removeDocument key collection => [.slot key, .collection collection]
  | insertEdge source target collection => [.slot source, .slot target, .collection collection]
  | removeEdges collection ends =>
    .var .edge :: .collection collection ::
      ends.flatMap (fun e => [Part.var .edge, .slot e.2]) ++ [.var .edge, .collection collection]

/-! ## Readers -/

/-- What stands between parts. -/
inductive Lexeme.Between : Lexeme → Prop
  | word (w : Word) : Between (.word w)
  | number (n : Nat) : Between (.number n)
  | mark {m : Mark} (h : m ≠ .atSign) : Between (.mark m)

/-- Nothing follows, or a mark that does not belong to a slot. -/
def Ends (rest : List Lexeme) : Prop := ∀ l ∈ rest.head?, ∃ m, m ≠ Mark.atSign ∧ l = .mark m

theorem ends_nil : Ends [] := fun _ h => nomatch h

theorem ends_mark {m : Mark} (h : m ≠ .atSign) (rest : List Lexeme) : Ends (.mark m :: rest) := by
  intro l hl
  exact ⟨m, h, (Option.some.inj hl).symm⟩

/-- Draws a list out of lexemes, passing over what stands between parts. -/
structure Reader (α : Type) where
  read : List Lexeme → List α
  /-- What is read in a part. -/
  part : Part → List α
  read_nil : read [] = []
  read_between : ∀ l rest, l.Between → read (l :: rest) = read rest
  read_column : ∀ n rest, read (columnLexemes n ++ rest) = read rest

namespace Reader

variable {α : Type} (r : Reader α)

/-- The lexemes give a list, whatever follows where they may end. -/
def Gives (ls : List Lexeme) (as : List α) : Prop :=
  ∀ rest, Ends rest → r.read (ls ++ rest) = as ++ r.read rest

/-- The pieces give a list, one after the other. -/
inductive GivesAll : List (List Lexeme) → List α → Prop
  | nil : GivesAll [] []
  | cons {piece : List Lexeme} {pieces : List (List Lexeme)} {as bs : List α} :
      r.Gives piece as → GivesAll pieces bs → GivesAll (piece :: pieces) (as ++ bs)

/-- What is read in parts, one after the other. -/
def parts (ps : List Part) : List α := ps.flatMap r.part

/-- Each of the parts gives what is read in it. -/
def Reads (ps : List Part) : Prop := ∀ p ∈ ps, r.Gives p.lexemes (r.part p)

variable {r} {ls ls' more : List Lexeme} {as bs : List α} {pieces others : List (List Lexeme)}

theorem Gives.read_eq (h : r.Gives ls as) : r.read ls = as := by
  simpa [r.read_nil] using h [] ends_nil

theorem Gives.nil : r.Gives [] [] := fun _ _ => rfl

theorem Gives.cons (h : r.Gives ls as) {l : Lexeme} (hl : l.Between) : r.Gives (l :: ls) as := by
  intro rest hrest
  rw [List.cons_append, r.read_between l _ hl, h rest hrest]

/-- A mark between two pieces ends the first one. -/
theorem Gives.append (h : r.Gives ls as) {m : Mark} (hm : m ≠ .atSign) (h' : r.Gives ls' bs) :
    r.Gives (ls ++ .mark m :: ls') (as ++ bs) := by
  intro rest hrest
  rw [List.append_assoc, List.cons_append, h _ (ends_mark hm _), r.read_between _ _ (.mark hm),
    h' rest hrest, List.append_assoc]

theorem GivesAll.between (h : r.GivesAll pieces as) {l : Lexeme} (hl : l.Between) :
    r.GivesAll ([l] :: pieces) as :=
  .cons (Gives.nil.cons hl) h

theorem GivesAll.append (h : r.GivesAll pieces as) (h' : r.GivesAll others bs) :
    r.GivesAll (pieces ++ others) (as ++ bs) := by
  induction h with
  | nil => exact h'
  | cons hpiece _ ih => exact List.append_assoc _ _ _ ▸ .cons hpiece ih

theorem GivesAll.single (h : r.Gives ls as) : r.GivesAll [ls] as :=
  List.append_nil as ▸ .cons h .nil

/-- Pieces give what they give one after the other, when what separates them starts with a mark. -/
theorem GivesAll.intercalate {m : Mark} (hm : m ≠ .atSign) (hmore : ∀ l ∈ more, l.Between)
    (h : r.GivesAll pieces as) : r.Gives ((Lexeme.mark m :: more).intercalate pieces) as := by
  have hskip : ∀ {ls as}, r.Gives ls as → r.Gives (more ++ ls) as := by
    intro ls as hls
    induction more with
    | nil => exact hls
    | cons l rest ih =>
      rw [List.forall_mem_cons] at hmore
      exact (ih hmore.2).cons hmore.1
  induction h with
  | nil => exact .nil
  | @cons piece pieces as bs hpiece hrest ih =>
    cases pieces with
    | nil =>
      cases hrest
      simpa [List.intercalate] using hpiece
    | cons next others =>
      have hjoined : (Lexeme.mark m :: more).intercalate (piece :: next :: others) =
          piece ++ .mark m :: (more ++ (Lexeme.mark m :: more).intercalate (next :: others)) := by
        simp [List.intercalate]
      exact hjoined ▸ hpiece.append hm (hskip ih)

/-! ## Ways to put pieces together -/

theorem GivesAll.spaced (h : r.GivesAll pieces as) : r.Gives (spaced pieces) as :=
  h.intercalate (by decide) (by simp)

theorem GivesAll.listed (h : r.GivesAll pieces as) : r.Gives (listed pieces) as := by
  refine h.intercalate (by decide) ?_
  intro l hl
  obtain rfl := List.mem_singleton.mp hl
  exact .mark (by decide)

theorem Gives.parenthesised (h : r.Gives ls as) : r.Gives (parenthesised ls) as := by
  have hclosed : r.Gives (ls ++ [.mark .closeParen]) (as ++ []) := h.append (by decide) .nil
  exact List.append_nil as ▸ hclosed.cons (.mark (by decide))

/-- Pieces with an operator between them. -/
theorem GivesAll.operated (h : r.GivesAll pieces as) (operator : Word) :
    r.Gives ([Lexeme.mark .blank, .word operator, .mark .blank].intercalate pieces) as := by
  refine h.intercalate (by decide) ?_
  intro l hl
  rcases List.mem_pair.mp hl with rfl | rfl
  · exact .word _
  · exact .mark (by decide)

theorem GivesAll.braced (h : r.GivesAll pieces as) : r.Gives (braced pieces) as := by
  have hclose : r.GivesAll [[.mark .closeBrace]] [] := GivesAll.nil.between (.mark (by decide))
  have hall := GivesAll.between (.cons h.listed hclose) (.mark (m := .openBrace) (by decide))
  exact List.append_nil as ▸ hall.spaced

theorem GivesAll.call (h : r.GivesAll pieces as) (function : Word) :
    r.Gives (call function pieces) as :=
  h.listed.parenthesised.cons (.word function)

/-- A word before a piece. -/
theorem Gives.after (h : r.Gives ls as) (w : Word) : r.Gives (Aql.spaced [[.word w], ls]) as :=
  ((GivesAll.single h).between (.word w)).spaced

theorem Gives.entry (h : r.Gives ls as) (h' : r.Gives ls' bs) :
    r.Gives (entry ls ls') (as ++ bs) := by
  have hkey : r.Gives (ls ++ [.mark .colon]) (as ++ []) := h.append (by decide) .nil
  exact (GivesAll.cons (List.append_nil as ▸ hkey) (.single h')).spaced

theorem Gives.assignment {v : Var} (hv : r.Gives (Part.var v).lexemes bs) (h : r.Gives ls as) :
    r.Gives (assignment v ls) (bs ++ as) :=
  (GivesAll.cons hv ((GivesAll.single h).between (.mark (by decide)))).spaced

theorem Gives.loop {v : Var} (hv : r.Gives (Part.var v).lexemes bs) (h : r.Gives ls as) :
    r.Gives (loop v ls) (bs ++ as) :=
  (GivesAll.between (.cons hv ((GivesAll.single h).between (.word .inWord))) (.word .forWord)).spaced

/-! ## Parts of lists -/

theorem Reads.cons_iff {p : Part} {ps : List Part} :
    r.Reads (p :: ps) ↔ r.Gives p.lexemes (r.part p) ∧ r.Reads ps :=
  List.forall_mem_cons

theorem Reads.pair {p q : Part} (h : r.Reads [p, q]) :
    r.Gives p.lexemes (r.part p) ∧ r.Gives q.lexemes (r.part q) :=
  ⟨h p List.mem_cons_self, h q (List.mem_cons_of_mem _ List.mem_cons_self)⟩

theorem Reads.append_iff {ps qs : List Part} : r.Reads (ps ++ qs) ↔ r.Reads ps ∧ r.Reads qs :=
  List.forall_mem_append

theorem parts_append (ps qs : List Part) : r.parts (ps ++ qs) = r.parts ps ++ r.parts qs :=
  List.flatMap_append

theorem GivesAll.map {β : Type} {f : β → List Lexeme} {g : β → List Part} {bs : List β}
    (h : ∀ b, r.Reads (g b) → r.Gives (f b) (r.parts (g b))) (hreads : r.Reads (bs.flatMap g)) :
    r.GivesAll (bs.map f) (r.parts (bs.flatMap g)) := by
  induction bs with
  | nil => exact .nil
  | cons b rest ih =>
    rw [List.flatMap_cons, Reads.append_iff] at hreads
    rw [List.flatMap_cons, parts_append]
    exact .cons (h b hreads.1) (ih hreads.2)

theorem GivesAll.mapIdx {β : Type} {f : Nat → β → List Lexeme} {g : Nat → β → List Part}
    {bs : List β} (h : ∀ n b, r.Reads (g n b) → r.Gives (f n b) (r.parts (g n b)))
    (hreads : r.Reads (bs.mapIdx g).flatten) :
    r.GivesAll (bs.mapIdx f) (r.parts (bs.mapIdx g).flatten) := by
  induction bs generalizing f g with
  | nil => exact .nil
  | cons b rest ih =>
    rw [List.mapIdx_cons, List.flatten_cons, Reads.append_iff] at hreads
    rw [List.mapIdx_cons, List.mapIdx_cons, List.flatten_cons, parts_append]
    exact .cons (h 0 b hreads.1) (ih (fun n => h (n + 1)) hreads.2)

theorem GivesAll.flatMap {β : Type} {f : β → List (List Lexeme)} {g : β → List Part} {bs : List β}
    (h : ∀ b, r.Reads (g b) → r.GivesAll (f b) (r.parts (g b))) (hreads : r.Reads (bs.flatMap g)) :
    r.GivesAll (bs.flatMap f) (r.parts (bs.flatMap g)) := by
  induction bs with
  | nil => exact .nil
  | cons b rest ih =>
    rw [List.flatMap_cons, Reads.append_iff] at hreads
    rw [List.flatMap_cons, List.flatMap_cons, parts_append]
    exact (h b hreads.1).append (ih hreads.2)

/-! ## Conditions -/

mutual
/-- A condition gives what its parts give. -/
theorem gives_test : (t : Test) → r.Reads t.parts → r.Gives t.lexemes (r.parts t.parts)
  | .relation left op right, h => by
    have hop : op.mark ≠ .atSign := by cases op <;> decide
    obtain ⟨hleft, hright⟩ := h.pair
    exact (GivesAll.cons hleft (.between (.cons hright .nil) (.mark hop))).spaced
  | .memberOf field values, h => by
    obtain ⟨hfield, hvalues⟩ := h.pair
    exact (GivesAll.cons hfield (.between (.cons hvalues .nil) (.word .inWord))).spaced
  | .hasMember field value, h => by
    obtain ⟨hvalue, hfield⟩ := h.pair
    exact (GivesAll.cons hvalue (.between (.cons hfield .nil) (.word .inWord))).spaced
  | .contains field part, h => by
    obtain ⟨hfield, hpart⟩ := h.pair
    exact (GivesAll.cons hfield (.cons hpart .nil)).call .contains
  | .startsWith field start, h => by
    obtain ⟨hfield, hstart⟩ := h.pair
    exact (GivesAll.cons hfield (.cons hstart .nil)).call .startsWith
  | .isNull field negated, h => by
    have hmark : (if negated then Mark.notEqual else .equal) ≠ .atSign := by
      cases negated <;> decide
    obtain ⟨hfield, -⟩ := Reads.cons_iff.mp h
    exact (GivesAll.cons hfield (.between (.between .nil (.word .null)) (.mark hmark))).spaced
  | .all members, h => ((gives_members members h).operated .andWord).parenthesised
  | .any members, h => ((gives_members members h).operated .orWord).parenthesised
  | .not member, h => (gives_test member h).parenthesised.after .notWord
theorem gives_members : (ts : List Test) → r.Reads (Test.memberParts ts) →
    r.GivesAll (Test.memberLexemes ts) (r.parts (Test.memberParts ts))
  | [], _ => .nil
  | t :: rest, h => by
    obtain ⟨ht, hrest⟩ := Reads.append_iff.mp h
    rw [Test.memberParts, parts_append]
    exact .cons (gives_test t ht) (gives_members rest hrest)
end

/-! ## Steps and clauses -/

theorem gives_edges (e : Edges) (depth : Nat) (start : Var) (h : r.Reads (e.parts start)) :
    r.Gives (e.path depth start) (r.parts (e.parts start)) := by
  obtain ⟨hstart, h⟩ := Reads.cons_iff.mp h
  obtain ⟨hfirst, h⟩ := Reads.cons_iff.mp h
  have hothers : r.GivesAll (e.others.map fun o => spaced [[.word (directionWord o.1)], [.name o.2]])
      (r.parts (e.others.flatMap fun o => [.collection o.2])) := by
    refine .map (fun o ho => ?_) (by rwa [← List.map_eq_flatMap])
    exact (GivesAll.between (.cons (Reads.cons_iff.mp ho).1 .nil) (.word _)).spaced
  rw [← List.map_eq_flatMap] at hothers
  have hcollections : r.Gives e.collections _ := (GivesAll.cons hfirst hothers).listed
  have hrange : r.Gives [.number 1, .mark .range, .number depth] [] :=
    ((Gives.nil.cons (.number depth)).cons (.mark (by decide))).cons (.number 1)
  exact (GivesAll.cons hrange (.between (.cons hstart (.single hcollections)) (.word _))).spaced

/-- A step gives what its parts give. -/
theorem gives_step (s : Step) (h : r.Reads s.parts) : r.Gives s.line (r.parts s.parts) := by
  cases s with
  | filter test => exact (gives_test test h).after .filter
  | traverse index depth start edges =>
    obtain ⟨hindex, hpath⟩ := Reads.cons_iff.mp h
    have hloop := Gives.loop hindex (gives_edges edges depth start hpath)
    unfold Step.line
    dsimp only
    split
    · exact hloop
    · have hoptions : r.GivesAll [[.word .options], [.word .breadthFirst]] [] :=
        .between (.between .nil (.word _)) (.word _)
      have hall := (GivesAll.cons hloop hoptions).spaced
      rwa [List.append_nil] at hall

theorem GivesAll.indented (h : r.GivesAll pieces as) :
    r.GivesAll (pieces.map (Lexeme.mark .indent :: ·)) as := by
  induction h with
  | nil => exact .nil
  | cons hpiece _ ih => exact .cons (hpiece.cons (.mark (by decide))) ih

theorem Gives.columns (n : Nat) (h : r.Gives ls as) :
    r.Gives (Aql.entry (columnLexemes n) ls) as := by
  have hcolumn : r.Gives (columnLexemes n) [] := fun rest _ => r.read_column n rest
  exact hcolumn.entry h

theorem gives_columnsRow (columns : List Expr) (h : r.Reads (columns.map .expr)) :
    r.Gives (columnsRow columns) (r.parts (columns.map .expr)) := by
  unfold columnsRow
  split
  · next hempty =>
    rw [List.isEmpty_iff.mp hempty]
    exact Gives.nil.cons (.word .trueWord)
  · have hindexed : ∀ es : List Expr,
        es.map Part.expr = (es.mapIdx fun _ e => [Part.expr e]).flatten := by
      intro es
      induction es with
      | nil => rfl
      | cons e rest ih => simp [List.mapIdx_cons, ih]
    rw [hindexed] at h ⊢
    refine GivesAll.braced (.mapIdx (fun n e he => ?_) h)
    have hexpr : r.Gives e.lexemes (r.part (.expr e) ++ []) :=
      (List.append_nil _).symm ▸ (Reads.cons_iff.mp he).1
    exact hexpr.columns n

theorem gives_word (w : Word) : r.Gives [.word w] [] := Gives.nil.cons (.word w)

theorem gives_number (n : Nat) : r.Gives [.number n] [] := Gives.nil.cons (.number n)

/-- A first match gives its variable, what its steps and columns give, and its variable again. -/
theorem gives_firstMatch {steps : List Step} {columns : List Expr}
    (h : r.Reads (Clause.firstMatch steps columns).parts) :
    r.GivesAll (Clause.firstMatch steps columns).lines
      (r.parts (Clause.firstMatch steps columns).parts) := by
  obtain ⟨hhit, h⟩ := Reads.cons_iff.mp h
  obtain ⟨h, -⟩ := Reads.append_iff.mp h
  obtain ⟨hsteps, hcolumns⟩ := Reads.append_iff.mp h
  have hcall : r.Gives [.word .first, .mark .openParen] [] :=
    (Gives.nil.cons (.mark (by decide))).cons (.word .first)
  have hopen : r.Gives (spaced [[.word .letWord], assignment .hit [.word .first, .mark .openParen]])
      (r.part (.var .hit) ++ []) := (Gives.assignment hhit hcall).after .letWord
  have hlines : r.GivesAll (steps.map Step.line) (r.parts (steps.flatMap Step.parts)) :=
    .map gives_step hsteps
  have hlimit : r.Gives (spaced [[.word .limit], [.number 1]]) [] := (gives_number 1).after .limit
  have hreturn := (gives_columnsRow columns hcolumns).after .returnWord
  have hfound : r.Gives (spaced [[.word .filter], Var.hit.lexemes, [.mark .notEqual],
      [.word .null]]) (r.part (.var .hit) ++ []) :=
    (GivesAll.between (.cons hhit (.between (.between .nil (.word _)) (.mark (by decide))))
      (.word _)).spaced
  -- The steps, the limit and the row of columns are the body of the call.
  have hinner := (hlines.append (.cons hlimit (.single hreturn))).indented
  have hlast := GivesAll.between (.single hfound) (.mark (m := .closeParen) (by decide))
  have hall := ((GivesAll.single hopen).append hinner).append hlast
  simpa [parts, Clause.parts, Clause.lines] using hall

theorem gives_neighbours {index : Nat} {cardinality : Cardinality} {edges : Edges}
    (h : r.Reads (Clause.neighbours index cardinality edges).parts) :
    r.GivesAll (Clause.neighbours index cardinality edges).lines
      (r.parts (Clause.neighbours index cardinality edges).parts) := by
  obtain ⟨hincluded, h⟩ := Reads.cons_iff.mp h
  obtain ⟨hneighbour, h⟩ := Reads.cons_iff.mp h
  obtain ⟨hedges, -⟩ := Reads.append_iff.mp h
  have hmember : r.Gives ((Var.neighbour index).lexemes ++ [.mark .dot, .word .idMember])
      (r.part (.var (.neighbour index)) ++ []) := hneighbour.append (by decide) (gives_word _)
  have hloop := Gives.loop hneighbour (gives_edges edges 1 .doc hedges)
  have hfound := (GivesAll.cons hloop
    (.between (.between (.single hmember) (.word .distinct)) (.word .returnWord))).spaced
  cases cardinality with
  | one =>
    have hvalue := (GivesAll.single hfound).call .first
    have hline := (Gives.assignment hincluded hvalue).after .letWord
    simpa [parts, Clause.parts, Clause.lines] using GivesAll.single hline
  | many =>
    have hline := (Gives.assignment hincluded hfound.parenthesised).after .letWord
    simpa [parts, Clause.parts, Clause.lines] using GivesAll.single hline

theorem gives_collect {groups : List Expr} {totals : List (Function × Expr)}
    (h : r.Reads (Clause.collect groups totals).parts) :
    r.GivesAll (Clause.collect groups totals).lines
      (r.parts (Clause.collect groups totals).parts) := by
  obtain ⟨hgroups, htotals⟩ := Reads.append_iff.mp h
  have hassign : Mark.assign ≠ .atSign := by decide
  have hkeys : r.GivesAll (groups.mapIdx fun i e => assignment (.group i) e.lexemes)
      (r.parts (groups.mapIdx fun n e => [Part.var (.group n), .expr e]).flatten) := by
    refine .mapIdx (fun n e he => ?_) hgroups
    exact (GivesAll.cons he.pair.1 (.between (.cons he.pair.2 .nil) (.mark hassign))).spaced
  have hvalues : r.GivesAll
      (totals.mapIdx fun i t => assignment (.total i) (call t.1.word [t.2.lexemes]))
      (r.parts (totals.mapIdx fun n t => [Part.var (.total n), .expr t.2]).flatten) := by
    refine .mapIdx (fun n t ht => ?_) htotals
    have hcall := (GivesAll.cons ht.pair.2 .nil).call t.1.word
    exact (GivesAll.cons ht.pair.1 ((GivesAll.single hcall).between (.mark hassign))).spaced
  have haggregated := GivesAll.between (.single hvalues.listed) (.word .aggregate)
  unfold Clause.lines
  dsimp only
  split
  · next hempty =>
    obtain rfl : groups = [] := by simpa using hempty
    exact .single (haggregated.between (.word .collect)).spaced
  · have hall := (GivesAll.between (.cons hkeys.listed haggregated) (.word .collect)).spaced
    rw [← parts_append] at hall
    exact .single hall

theorem gives_sort {keys : List (Expr × SortDirection)} (h : r.Reads (Clause.sort keys).parts) :
    r.GivesAll (Clause.sort keys).lines (r.parts (Clause.sort keys).parts) := by
  have hkeys : r.GivesAll (keys.map fun k => spaced [k.1.lexemes, [.word (sortWord k.2)]])
      (r.parts (keys.flatMap fun k => [.expr k.1])) := by
    refine .map (fun k hk => ?_) (by rwa [← List.map_eq_flatMap])
    exact (GivesAll.cons (Reads.cons_iff.mp hk).1 (.between .nil (.word _))).spaced
  rw [← List.map_eq_flatMap] at hkeys
  exact .single (hkeys.listed.after .sort)

/-- The lines of a clause give what its parts give. -/
theorem gives_clause (c : Clause) (h : r.Reads c.parts) : r.GivesAll c.lines (r.parts c.parts) := by
  cases c with
  | step s => exact .single (gives_step s h)
  | firstMatch steps columns => exact gives_firstMatch h
  | neighbours index cardinality edges => exact gives_neighbours h
  | collect groups totals => exact gives_collect h
  | sort keys => exact gives_sort h
  | limit offset count =>
    have hnumbers : r.GivesAll [[.number offset], [.number count]] [] :=
      .cons (gives_number offset) (.single (gives_number count))
    exact .single (hnumbers.listed.after .limit)

/-! ## Statements -/

theorem gives_object (entries : List (String × Expr)) (h : r.Reads (entryParts entries)) :
    r.Gives (objectLexemes entries) (r.parts (entryParts entries)) := by
  refine GivesAll.braced (.map (fun e he => ?_) h)
  have hentry : r.Gives (entry [.key e.1] e.2.lexemes) _ := he.pair.1.entry he.pair.2
  simpa [parts] using hentry

theorem gives_result (result : Result) (h : r.Reads result.parts) :
    r.Gives result.line (r.parts result.parts) := by
  cases result with
  | document => exact (GivesAll.between (.cons (Reads.cons_iff.mp h).1 .nil) (.word _)).spaced
  | merged entries =>
    obtain ⟨hdoc, hentries⟩ := Reads.cons_iff.mp h
    exact ((GivesAll.cons hdoc (.single (gives_object entries hentries))).call .merge).after _
  | object entries => exact (gives_object entries h).after _

theorem Gives.within {collection : String} (h : r.Gives [.name collection] as) (w : Word) :
    r.Gives (within w collection) as :=
  ((GivesAll.single h).between (.word w)).spaced

theorem gives_returnNew : r.Gives returnNew [] :=
  (GivesAll.between (.between .nil (.word _)) (.word _)).spaced

theorem gives_removeEdges {collection : String} {ends : List (EdgeEnd × Slot)}
    (h : r.Reads (Command.removeEdges collection ends).parts) :
    r.Gives (Command.removeEdges collection ends).lexemes
      (r.parts (Command.removeEdges collection ends).parts) := by
  obtain ⟨hedge, h⟩ := Reads.cons_iff.mp h
  obtain ⟨hcollection, h⟩ := Reads.cons_iff.mp h
  obtain ⟨hends, -⟩ := Reads.append_iff.mp h
  have htests : r.GivesAll
      (ends.map fun e => spaced [Var.edge.lexemes ++ [.mark .dot, .word e.1.word], [.mark .equal],
        e.2.lexemes])
      (r.parts (ends.flatMap fun e => [Part.var .edge, .slot e.2])) := by
    refine .map (fun e he => ?_) hends
    have hmember : r.Gives (Var.edge.lexemes ++ [.mark .dot, .word e.1.word])
        (r.part (.var .edge) ++ []) := hedge.append (by decide) (gives_word _)
    rw [List.append_nil] at hmember
    exact (GivesAll.cons hmember (.between (.cons he.pair.2 .nil) (.mark (by decide)))).spaced
  have hall : r.Gives (Command.removeEdges collection ends).lexemes _ :=
    (GivesAll.cons (Gives.loop hedge hcollection) (.between (.cons (htests.operated .andWord)
      (.between (.cons hedge (.cons (hcollection.within .inWord) .nil)) (.word .remove)))
      (.word .filter))).spaced
  simpa [parts, Command.parts] using hall

/-- A statement gives what its parts give. -/
theorem gives_command (c : Command) (h : r.Reads c.parts) :
    r.Gives c.lexemes (r.parts c.parts) := by
  have hnew : r.GivesAll [returnNew] [] := .cons gives_returnNew .nil
  cases c with
  | read collection clauses result =>
    obtain ⟨hdoc, h⟩ := Reads.cons_iff.mp h
    obtain ⟨hcollection, h⟩ := Reads.cons_iff.mp h
    obtain ⟨hclauses, hresult⟩ := Reads.append_iff.mp h
    have hlines := (GivesAll.flatMap gives_clause hclauses).append
      (.single (gives_result result hresult))
    have hall : r.Gives (Command.read collection clauses result).lexemes _ :=
      (GivesAll.cons (Gives.loop hdoc hcollection) hlines).intercalate (by decide) (by simp)
    simpa [parts, Command.parts] using hall
  | readDocument handle =>
    exact ((GivesAll.cons (Reads.cons_iff.mp h).1 .nil).call .document).after .returnWord
  | insertDocument document collection =>
    exact (GivesAll.between (.cons h.pair.1 (.cons (h.pair.2.within .into) hnew))
      (.word .insert)).spaced
  | updateDocument key patch collection =>
    obtain ⟨hkey, h⟩ := Reads.cons_iff.mp h
    exact (GivesAll.between (.cons hkey (.between (.cons h.pair.1
      (.cons (h.pair.2.within .inWord) hnew)) (.word .withWord))) (.word .update)).spaced
  | removeDocument key collection =>
    exact (GivesAll.between (.cons h.pair.1 (.cons (h.pair.2.within .inWord) .nil))
      (.word .remove)).spaced
  | insertEdge source target collection =>
    obtain ⟨hsource, h⟩ := Reads.cons_iff.mp h
    have hends := GivesAll.braced (.cons ((gives_word .fromMember).entry hsource)
      (.cons ((gives_word .toMember).entry h.pair.1) .nil))
    have hall : r.Gives (Command.insertEdge source target collection).lexemes _ :=
      (GivesAll.between (.cons hends (.cons (h.pair.2.within .into) hnew)) (.word .insert)).spaced
    simpa [parts, Command.parts] using hall
  | removeEdges collection ends => exact gives_removeEdges h

/-- What is read in a statement is what is read in its parts, one after the other. -/
theorem read_command (c : Command) (h : r.Reads c.parts) :
    r.read c.lexemes = c.parts.flatMap r.part :=
  (gives_command c h).read_eq

end Reader

end GraphMapper.Aql
