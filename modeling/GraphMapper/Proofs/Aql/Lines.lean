import GraphMapper.Proofs.Aql.Contained

/-!
# The lines of a statement text

A reading statement is a list of lines with line breaks between them. No lexeme of a line is a line
break, and the names of contained parts have none, so that the text splits into these lines
(`Command.splitChars_text`). Each of them but the inner ones of a first match begins with a word that
says what it does (`Clause.opens_lines`).
-/

namespace GraphMapper.Aql

/-! ## Lexemes without line breaks -/

/-- The characters of pieces with others between them. -/
theorem charsOf_intercalate (sep : List Lexeme) (pieces : List (List Lexeme)) :
    charsOf (sep.intercalate pieces) = (charsOf sep).intercalate (pieces.map charsOf) := by
  induction pieces with
  | nil => rfl
  | cons piece rest ih =>
    cases rest with
    | nil => rw [List.map_singleton, List.intercalate_singleton, List.intercalate_singleton]
    | cons next others =>
      rw [List.map_cons, List.map_cons, List.intercalate_cons_cons, List.intercalate_cons_cons,
        ← List.map_cons, ← ih, charsOf_append, charsOf_append]

theorem spaced_pair (piece next : List Lexeme) :
    spaced [piece, next] = piece ++ .mark .blank :: next := by
  rw [spaced, List.intercalate_cons_cons, List.intercalate_singleton, List.append_assoc]
  rfl

theorem charsOf_spaced_cons (piece next : List Lexeme) (others : List (List Lexeme)) :
    charsOf (spaced (piece :: next :: others)) =
      charsOf piece ++ ' ' :: charsOf (spaced (next :: others)) := by
  rw [spaced, List.intercalate_cons_cons, charsOf_append, charsOf_append, List.append_assoc]
  rfl

theorem charsOf_spaced_pair (piece next : List Lexeme) :
    charsOf (spaced [piece, next]) = charsOf piece ++ ' ' :: charsOf next := by
  rw [spaced_pair, charsOf_append]
  rfl

/-- The lexemes stand on one line. -/
def Unbroken (ls : List Lexeme) : Prop := ∀ l ∈ ls, l ≠ .mark .lineBreak

@[simp] theorem unbroken_nil : Unbroken [] := List.forall_mem_nil _

@[simp] theorem unbroken_cons {l : Lexeme} {ls : List Lexeme} :
    Unbroken (l :: ls) ↔ l ≠ .mark .lineBreak ∧ Unbroken ls := List.forall_mem_cons

@[simp] theorem unbroken_append {ls ls' : List Lexeme} :
    Unbroken (ls ++ ls') ↔ Unbroken ls ∧ Unbroken ls' := List.forall_mem_append

theorem unbroken_intercalate {sep : List Lexeme} (hsep : Unbroken sep)
    {pieces : List (List Lexeme)} :
    Unbroken (sep.intercalate pieces) ↔ ∀ piece ∈ pieces, Unbroken piece := by
  induction pieces with
  | nil => simp [List.intercalate]
  | cons piece rest ih =>
    cases rest with
    | nil => rw [List.intercalate_singleton, List.forall_mem_singleton]
    | cons next others =>
      rw [List.intercalate_cons_cons, unbroken_append, unbroken_append, ih, and_iff_left hsep]
      exact List.forall_mem_cons.symm

@[simp] theorem unbroken_spaced {pieces : List (List Lexeme)} :
    Unbroken (spaced pieces) ↔ ∀ piece ∈ pieces, Unbroken piece :=
  unbroken_intercalate (by simp)

@[simp] theorem unbroken_listed {pieces : List (List Lexeme)} :
    Unbroken (listed pieces) ↔ ∀ piece ∈ pieces, Unbroken piece :=
  unbroken_intercalate (by simp)

@[simp] theorem unbroken_parenthesised {ls : List Lexeme} :
    Unbroken (parenthesised ls) ↔ Unbroken ls := by
  simp [parenthesised]

@[simp] theorem unbroken_braced {pieces : List (List Lexeme)} :
    Unbroken (braced pieces) ↔ ∀ piece ∈ pieces, Unbroken piece := by
  simp [braced]

@[simp] theorem unbroken_call {w : Word} {pieces : List (List Lexeme)} :
    Unbroken (call w pieces) ↔ ∀ piece ∈ pieces, Unbroken piece := by
  simp [call]

@[simp] theorem unbroken_grouped {w : Word} {pieces : List (List Lexeme)} :
    Unbroken (grouped w pieces) ↔ ∀ piece ∈ pieces, Unbroken piece := by
  rw [grouped, unbroken_parenthesised]
  exact unbroken_intercalate (by simp)

/-! ## Lines -/

@[simp] theorem Var.unbroken (v : Var) : Unbroken v.lexemes := by
  cases v <;> simp [lexemes]

@[simp] theorem Slot.unbroken (s : Slot) : Unbroken s.lexemes := by
  cases s <;> simp [lexemes]

@[simp] theorem attributeName_ne_lineBreak (s : String) : attributeName s ≠ .mark .lineBreak := by
  unfold attributeName
  split <;> simp

@[simp] theorem Expr.unbroken (e : Expr) : Unbroken e.lexemes := by
  cases e with
  | column n => simp [lexemes, columnLexemes]
  | field v segments =>
    rw [lexemes, unbroken_append]
    refine ⟨v.unbroken, fun l hl => ?_⟩
    obtain ⟨s, -, hl⟩ := List.mem_flatMap.mp hl
    rcases List.mem_pair.mp hl with rfl | rfl
    · simp
    · exact attributeName_ne_lineBreak s

@[simp] theorem Relation.mark_ne_lineBreak (op : Relation) : op.mark ≠ .lineBreak := by
  cases op <;> simp [mark]

namespace Test

mutual
@[simp] theorem unbroken : (t : Test) → Unbroken t.lexemes
  | .relation left op right => by simp [lexemes]
  | .memberOf field values => by simp [lexemes]
  | .hasMember field value => by simp [lexemes]
  | .contains field part => by simp [lexemes]
  | .startsWith field start => by simp [lexemes]
  | .isNull field negated => by cases negated <;> simp [lexemes]
  | .all members => by simpa [lexemes] using unbroken_members members
  | .any members => by simpa [lexemes] using unbroken_members members
  | .not member => by simpa [lexemes] using unbroken member
theorem unbroken_members : (ts : List Test) → ∀ ls ∈ memberLexemes ts, Unbroken ls
  | [] => by simp [memberLexemes]
  | t :: rest => List.forall_mem_cons.mpr ⟨unbroken t, unbroken_members rest⟩
end

end Test

@[simp] theorem Edges.unbroken_path (e : Edges) (depth : Nat) (start : Var) :
    Unbroken (e.path depth start) := by
  have hothers : ∀ ls ∈ e.others.map fun o => spaced [[.word (directionWord o.1)], [.name o.2]],
      Unbroken ls := List.forall_mem_map.mpr fun o _ => by simp
  rw [path, collections]
  simpa using hothers

@[simp] theorem unbroken_loop {v : Var} {values : List Lexeme} :
    Unbroken (loop v values) ↔ Unbroken values := by
  simp [loop]

@[simp] theorem unbroken_entry {key value : List Lexeme} :
    Unbroken (entry key value) ↔ Unbroken key ∧ Unbroken value := by
  simp [entry]

@[simp] theorem unbroken_assignment {v : Var} {value : List Lexeme} :
    Unbroken (assignment v value) ↔ Unbroken value := by
  simp [assignment]

@[simp] theorem Step.unbroken (s : Step) : Unbroken s.line := by
  cases s with
  | filter test => simp [line]
  | traverse index depth start edges =>
    rw [line]
    split <;> simp

/-- Numbered pieces of one form. -/
theorem unbroken_mapIdx {α : Type} (piece : Nat → α → List Lexeme)
    (h : ∀ n a, Unbroken (piece n a)) (as : List α) : ∀ ls ∈ as.mapIdx piece, Unbroken ls := by
  intro ls hls
  obtain ⟨n, hn, rfl⟩ := List.mem_mapIdx.mp hls
  exact h n _

@[simp] theorem unbroken_columnsRow (columns : List Expr) : Unbroken (columnsRow columns) := by
  unfold columnsRow
  split
  · simp
  · exact unbroken_braced.mpr (unbroken_mapIdx _ (by simp [columnLexemes]) columns)

theorem Clause.unbroken (c : Clause) : ∀ line ∈ c.lines, Unbroken line := by
  cases c with
  | step s => simp [lines]
  | firstMatch steps columns =>
    have hsteps : ∀ line ∈ steps.map Step.line, Unbroken line :=
      List.forall_mem_map.mpr fun s _ => s.unbroken
    rw [lines]
    refine List.forall_mem_append.mpr ⟨List.forall_mem_append.mpr ⟨by simp, ?_⟩, by simp⟩
    refine List.forall_mem_map.mpr fun line hline => unbroken_cons.mpr ⟨by simp, ?_⟩
    exact List.forall_mem_append.mpr ⟨hsteps, by simp⟩ line hline
  | neighbours index cardinality edges => cases cardinality <;> simp [lines]
  | collect groups totals =>
    have hkeys := unbroken_mapIdx (fun n (e : Expr) => assignment (.group n) e.lexemes)
      (by simp) groups
    have hvalues := unbroken_mapIdx (fun n (t : Function × Expr) =>
      assignment (.total n) (call t.1.word [t.2.lexemes])) (by simp) totals
    rw [lines]
    split
    · simpa using hvalues
    · simpa using And.intro hkeys hvalues
  | sort keys =>
    have hkeys : ∀ ls ∈ keys.map fun k => spaced [k.1.lexemes, [.word (sortWord k.2)]],
        Unbroken ls := List.forall_mem_map.mpr fun k _ => by simp
    rw [lines]
    simpa using hkeys
  | limit offset count => simp [lines]

theorem Result.unbroken (r : Result) : Unbroken r.line := by
  have hentries : ∀ entries : List (String × Expr), Unbroken (objectLexemes entries) :=
    fun entries => unbroken_braced.mpr (List.forall_mem_map.mpr fun e _ => by simp)
  cases r <;> simp [line, hentries]

/-! ## The text -/

/-- The lines of a reading statement. -/
def readingLines (collection : String) (clauses : List Clause) (result : Result) :
    List (List Lexeme) :=
  loop .doc [.name collection] :: clauses.flatMap Clause.lines ++ [result.line]

theorem unbroken_readingLines (collection : String) (clauses : List Clause) (result : Result) :
    ∀ line ∈ readingLines collection clauses result, Unbroken line := by
  refine List.forall_mem_append.mpr ⟨List.forall_mem_cons.mpr ⟨by simp, ?_⟩, ?_⟩
  · intro line hline
    obtain ⟨c, -, hline⟩ := List.mem_flatMap.mp hline
    exact c.unbroken line hline
  · exact List.forall_mem_singleton.mpr result.unbroken

/-- No contained lexeme has a line break but the one that is one. -/
theorem Lexeme.IsContained.lineBreak_not_mem {l : Lexeme} (h : l.IsContained)
    (hmark : l ≠ .mark .lineBreak) : '\n' ∉ l.text.toList := by
  have hforeign := h.not_mem (c := '\n') (by decide) (by decide) (by decide)
  cases l with
  | word w => cases w <;> decide
  | head head => cases head <;> decide
  | mark m => cases m <;> first | decide | exact absurd rfl hmark
  | _ => exact hforeign _ rfl

theorem mem_intercalate {sep : List Lexeme} {pieces : List (List Lexeme)} {piece : List Lexeme}
    (hpiece : piece ∈ pieces) : piece ⊆ sep.intercalate pieces := by
  induction pieces with
  | nil => cases hpiece
  | cons first rest ih =>
    cases rest with
    | nil =>
      obtain rfl := List.mem_singleton.mp hpiece
      exact List.intercalate_singleton ▸ List.Subset.refl _
    | cons next others =>
      rw [List.intercalate_cons_cons]
      rcases List.mem_cons.mp hpiece with rfl | hpiece
      · exact List.Subset.trans (List.subset_append_left _ _) (List.subset_append_left _ _)
      · exact List.Subset.trans (ih hpiece) (List.subset_append_right _ _)

/-- The text of a reading statement of contained parts splits into its lines. -/
theorem Command.splitChars_text {collection : String} {clauses : List Clause} {result : Result}
    (h : ∀ p ∈ (read collection clauses result).parts, p.Contained) :
    Text.splitChars '\n' (read collection clauses result).text.toList =
      (readingLines collection clauses result).map charsOf := by
  have hlines : (read collection clauses result).lexemes =
      [Lexeme.mark .lineBreak].intercalate (readingLines collection clauses result) := rfl
  have hcontained := lexemes_contained h
  rw [text, toList_textOf, hlines, charsOf_intercalate]
  refine Text.splitChars_intercalate (by simp [readingLines]) (List.forall_mem_map.mpr ?_)
  intro line hline hmem
  obtain ⟨l, hl, hchar⟩ := List.mem_flatMap.mp hmem
  have hbroken := unbroken_readingLines collection clauses result line hline l hl
  exact (hcontained l (hlines ▸ mem_intercalate hline hl)).lineBreak_not_mem hbroken hchar

/-! ## First words -/

/-- The line begins with a word and a blank. -/
def Opens (w : Word) (line : List Lexeme) : Prop := ∃ rest, line = .word w :: .mark .blank :: rest

theorem opens_spaced (w : Word) (piece : List Lexeme) (rest : List (List Lexeme)) :
    Opens w (spaced ([.word w] :: piece :: rest)) :=
  ⟨spaced (piece :: rest), List.intercalate_cons_cons⟩

/-- A line goes on after its first piece. -/
theorem Opens.spaced {w : Word} {line : List Lexeme} (h : Opens w line) (piece : List Lexeme)
    (rest : List (List Lexeme)) : Opens w (spaced (line :: piece :: rest)) := by
  obtain ⟨more, rfl⟩ := h
  exact ⟨_, List.intercalate_cons_cons⟩

theorem Step.opens_line (s : Step) : Opens .filter s.line ∨ Opens .forWord s.line := by
  cases s with
  | filter test => exact Or.inl (opens_spaced _ _ _)
  | traverse index depth start edges =>
    have hreached : ∀ values, Opens .forWord (loop (.step index) values) :=
      fun values => opens_spaced _ _ _
    rw [line]
    split
    · exact Or.inr (hreached _)
    · exact Or.inr ((hreached _).spaced _ _)

/-- The words that lines of a clause begin with. -/
def Clause.openings : Clause → List Word
  | step _ => [.filter, .forWord]
  | firstMatch _ _ => [.letWord, .filter]
  | neighbours _ _ _ => [.letWord]
  | collect _ _ => [.collect]
  | sort _ => [.sort]
  | limit _ _ => [.limit]

/-- A line of a clause begins with one of its words, unless it is an inner line of a first match or
the end of these. -/
theorem Clause.opens_lines (c : Clause) : ∀ line ∈ c.lines, (∃ w ∈ c.openings, Opens w line) ∨
    line.head? = some (.mark .indent) ∨ line = [.mark .closeParen] := by
  cases c with
  | step s =>
    refine List.forall_mem_singleton.mpr (Or.inl ?_)
    rcases s.opens_line with h | h
    · exact ⟨_, List.mem_cons_self, h⟩
    · exact ⟨_, List.mem_cons_of_mem _ List.mem_cons_self, h⟩
  | firstMatch steps columns =>
    rw [lines]
    refine List.forall_mem_append.mpr ⟨List.forall_mem_append.mpr ⟨?_, ?_⟩, ?_⟩
    · exact List.forall_mem_singleton.mpr (Or.inl ⟨_, List.mem_cons_self, opens_spaced _ _ _⟩)
    · exact List.forall_mem_map.mpr fun line _ => Or.inr (Or.inl rfl)
    · refine List.forall_mem_cons.mpr ⟨Or.inr (Or.inr rfl), ?_⟩
      refine List.forall_mem_singleton.mpr (Or.inl ⟨.filter, ?_, opens_spaced _ _ _⟩)
      exact List.mem_cons_of_mem _ List.mem_cons_self
  | collect groups totals =>
    refine List.forall_mem_singleton.mpr (Or.inl ⟨_, List.mem_cons_self, ?_⟩)
    split <;> exact opens_spaced _ _ _
  | _ => exact List.forall_mem_singleton.mpr (Or.inl ⟨_, List.mem_cons_self, opens_spaced _ _ _⟩)

theorem Result.opens_line (r : Result) : Opens .returnWord r.line := opens_spaced _ _ _

end GraphMapper.Aql
