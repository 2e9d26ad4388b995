import GraphMapper.Proofs.Aql.Words
import GraphMapper.Proofs.Query.Scoped

/-!
# Sorting and paging in a statement text

The keys and the limits of a statement are read off the lines of its text (`Page.read?`): a line whose
first word is `SORT` or `LIMIT` shows, between its commas, expressions with directions or two numbers.
Lines inside a first match are indented and have no first word, and every other clause begins with a
word of its own (`Page.isPaging_of_phase`).

Neither an expression of contained parts nor a number has a blank or a comma in it, so the lines of the
clauses that sort and cut are read as what these clauses hold (`Page.read?_pages`).
-/

namespace GraphMapper

open Outcome Aql

/-! ## Reading the lines that sort and cut -/

/-- A key to sort by and its direction, or the offset and the count of a limit. -/
inductive Page where
  | key (expression : String) (direction : SortDirection)
  | cut (offset count : Int)
  deriving DecidableEq

namespace Page

/-- The first word of a line. An indented line has none. -/
def heading (line : List Char) : List Char := line.takeWhile (· != ' ')

/-- Whether the line sorts or cuts. -/
def isPaging (line : List Char) : Bool :=
  heading line == "SORT".toList || heading line == "LIMIT".toList

/-- What stands between the commas of a line after its first word, as words. -/
def arguments (line : List Char) : List (List (List Char)) :=
  (Text.splitChars ',' (line.dropWhile (· != ' '))).map words

/-- An expression with a direction. -/
def key? : List (List Char) → Option Page
  | [expression, direction] =>
    if direction = "ASC".toList then some (.key (String.ofList expression) .ascending)
    else if direction = "DESC".toList then some (.key (String.ofList expression) .descending)
    else none
  | _ => none

/-- Two numbers. -/
def cut? : List (List (List Char)) → Option Page
  | [[offset], [count]] => do
    return .cut (← (String.ofList offset).toNat?) (← (String.ofList count).toNat?)
  | _ => none

/-- What a line shows that sorts or cuts. -/
def ofLine? (line : List Char) : Option (List Page) :=
  if heading line = "SORT".toList then (arguments line).mapM key?
  else do return [← cut? (arguments line)]

/-- The keys and limits of the lines that sort or cut, from top to bottom. -/
def read? : List (List Char) → Option (List Page)
  | [] => some []
  | line :: rest =>
    if isPaging line then do return (← ofLine? line) ++ (← read? rest) else read? rest

/-! ## Lines without keys and limits -/

theorem read?_append {ls ls' : List (List Char)} {ps ps' : List Page} (h : read? ls = some ps)
    (h' : read? ls' = some ps') : read? (ls ++ ls') = some (ps ++ ps') := by
  induction ls generalizing ps with
  | nil =>
    obtain rfl := Option.some.inj h
    exact h'
  | cons line rest ih =>
    rw [List.cons_append, read?]
    rw [read?] at h
    split at h
    · next hpaging =>
      rw [if_pos hpaging]
      obtain ⟨first, hfirst, h⟩ := Option.bind_eq_some_iff.mp h
      obtain ⟨others, hothers, h⟩ := Option.bind_eq_some_iff.mp h
      obtain rfl := Option.some.inj h
      rw [hfirst, ih hothers, List.append_assoc]
      rfl
    · next hpaging =>
      rw [if_neg hpaging]
      exact ih h

theorem read?_of_not {ls : List (List Char)} (h : ∀ line ∈ ls, isPaging line = false) :
    read? ls = some [] := by
  induction ls with
  | nil => rfl
  | cons line rest ih =>
    obtain ⟨hline, hrest⟩ := List.forall_mem_cons.mp h
    rw [read?, hline]
    exact ih hrest

/-! ## Lines of words -/

theorem heading_of_opens {w : Word} (hw : ' ' ∉ w.text.toList) {line : List Lexeme}
    (h : Opens w line) : heading (charsOf line) = w.text.toList := by
  obtain ⟨rest, rfl⟩ := h
  have hchars : charsOf (.word w :: .mark .blank :: rest) =
      w.text.toList ++ ' ' :: charsOf rest := rfl
  rw [heading, hchars, List.takeWhile_append_of_pos]
  · simp
  · intro c hc
    simpa using ne_of_mem_of_not_mem hc hw

/-- With a blank in front, pieces with commas and blanks between them are alike. -/
theorem blank_intercalate {pieces : List (List Char)} (hne : pieces ≠ []) :
    ' ' :: [',', ' '].intercalate pieces = [','].intercalate (pieces.map (' ' :: ·)) := by
  induction pieces with
  | nil => exact absurd rfl hne
  | cons piece rest ih =>
    cases rest with
    | nil => rfl
    | cons next others =>
      rw [List.map_cons, List.map_cons, List.intercalate_cons_cons, List.intercalate_cons_cons,
        ← List.map_cons (f := (' ' :: ·)), ← ih (List.cons_ne_nil _ _)]
      simp

/-- The pieces of a list behind a word are its arguments. -/
theorem arguments_listed {w : Word} (hw : ' ' ∉ w.text.toList) {pieces : List (List Lexeme)}
    (hne : pieces ≠ []) (h : ∀ piece ∈ pieces, ',' ∉ charsOf piece) :
    arguments (charsOf (spaced [[.word w], listed pieces])) =
      pieces.map fun piece => words (charsOf piece) := by
  have hchars : charsOf (spaced [[.word w], listed pieces]) =
      w.text.toList ++ ' ' :: charsOf (listed pieces) := by
    rw [spaced_pair]
    rfl
  have hcomma : charsOf [.mark .comma, .mark .blank] = [',', ' '] := rfl
  rw [arguments, hchars, List.dropWhile_append_of_pos, List.dropWhile_cons_of_neg (by simp), listed,
    charsOf_intercalate, hcomma, blank_intercalate (by simpa using hne),
    Text.splitChars_intercalate, List.map_map, List.map_map]
  · exact List.map_congr_left fun piece _ => words_blank _
  · simpa using hne
  · simpa using h
  · intro c hc
    simpa using ne_of_mem_of_not_mem hc hw

/-! ## Keys and limits in lines -/

/-- A key of a sort clause as it is read. -/
def ofKey (k : Expr × SortDirection) : Page := .key (textOf k.1.lexemes) k.2

/-- A key of a sort clause as it is written. -/
def keyPiece (k : Expr × SortDirection) : List Lexeme := spaced [k.1.lexemes, [.word (sortWord k.2)]]

end Page

/-- The keys of a clause that sorts, or the limit of one that cuts. -/
def Aql.Clause.entries : Clause → List Page
  | .sort keys => keys.map Page.ofKey
  | .limit offset count => [.cut offset count]
  | _ => []

namespace Page

theorem isSolid_direction (direction : SortDirection) :
    IsSolid (charsOf [.word (sortWord direction)]) := by
  cases direction <;> exact ⟨by decide, by decide, by decide⟩

section

variable {k : Expr × SortDirection} (h : (Part.expr k.1).Contained)
include h

theorem comma_not_mem_keyPiece : ',' ∉ charsOf (keyPiece k) := by
  have hchars : charsOf (keyPiece k) =
      charsOf k.1.lexemes ++ ' ' :: charsOf [.word (sortWord k.2)] := charsOf_spaced_pair _ _
  have hexpr : ',' ∉ charsOf k.1.lexemes := h.isSolid.comma
  simp [hchars, hexpr, (isSolid_direction k.2).comma]

theorem key?_keyPiece : key? (words (charsOf (keyPiece k))) = some (ofKey k) := by
  have hexpr : words (charsOf k.1.lexemes) = [charsOf k.1.lexemes] := words_of_isSolid h.isSolid
  rw [keyPiece, words_spaced, List.flatMap_cons, List.flatMap_singleton, hexpr,
    words_of_isSolid (isSolid_direction k.2), ofKey, ← ofList_charsOf]
  cases k.2 <;> rfl

end

/-- The line of a clause that sorts or cuts. -/
def line (c : Clause) : List Char := charsOf (c.lines.headD [])

theorem lines_pages {pages : List Clause} (h : ∀ c ∈ pages, c.phase = 3) :
    (pages.flatMap Clause.lines).map charsOf = pages.map line := by
  rw [List.map_flatMap, List.map_eq_flatMap]
  refine List.flatMap_congr fun c hc => ?_
  have hphase := h c hc
  cases c with
  | sort keys => rfl
  | limit offset count => rfl
  | _ => cases hphase

theorem heading_sort (keys : List (Expr × SortDirection)) :
    heading (line (.sort keys)) = "SORT".toList :=
  heading_of_opens (w := .sort) (by decide) (opens_spaced _ _ _)

theorem heading_limit (offset count : Nat) : heading (line (.limit offset count)) = "LIMIT".toList :=
  heading_of_opens (w := .limit) (by decide) (opens_spaced _ _ _)

theorem isPaging_line {c : Clause} (h : c.phase = 3) : isPaging (line c) = true := by
  cases c with
  | sort keys => simp [isPaging, heading_sort]
  | limit offset count => simp [isPaging, heading_limit]
  | _ => cases h

theorem ofLine?_sort {keys : List (Expr × SortDirection)} (hne : keys ≠ [])
    (h : ∀ k ∈ keys, (Part.expr k.1).Contained) :
    ofLine? (line (.sort keys)) = some (keys.map ofKey) := by
  have hline : line (.sort keys) = charsOf (spaced [[.word .sort], listed (keys.map keyPiece)]) := rfl
  have hcomma : ∀ piece ∈ keys.map keyPiece, ',' ∉ charsOf piece :=
    List.forall_mem_map.mpr fun k hk => comma_not_mem_keyPiece (h k hk)
  rw [ofLine?, if_pos (heading_sort keys), hline,
    arguments_listed (by decide) (by simpa using hne) hcomma, List.map_map, List.mapM_map]
  exact mapM_eq_some fun k hk => key?_keyPiece (h k hk)

theorem ofLine?_limit (offset count : Nat) :
    ofLine? (line (.limit offset count)) = some [.cut offset count] := by
  have hline : line (.limit offset count) =
      charsOf (spaced [[.word .limit], listed [[.number offset], [.number count]]]) := rfl
  have hwords : ∀ n, words (charsOf [.number n]) = [charsOf [.number n]] :=
    fun n => words_of_isSolid (isSolid_number n)
  have hcomma : ∀ piece ∈ [[.number offset], [.number count]], ',' ∉ charsOf piece :=
    List.forall_mem_cons.mpr ⟨(isSolid_number _).comma,
      List.forall_mem_singleton.mpr (isSolid_number _).comma⟩
  rw [ofLine?, if_neg (by rw [heading_limit]; decide), hline, arguments_listed (by decide)
    (List.cons_ne_nil _ _) hcomma, List.map_cons, List.map_singleton, hwords, hwords, cut?,
    toNat?_number, toNat?_number]
  rfl

/-- Clauses that sort and cut are read as what they sort by and cut. -/
theorem read?_pages {pages : List Clause} (hphase : ∀ c ∈ pages, c.phase = 3)
    (hfilled : ∀ c ∈ pages, c.entries ≠ []) (h : ∀ c ∈ pages, ∀ p ∈ c.parts, p.Contained) :
    read? (pages.map line) = some (pages.flatMap Clause.entries) := by
  induction pages with
  | nil => rfl
  | cons c rest ih =>
    rw [List.forall_mem_cons] at hphase hfilled h
    have hline : ofLine? (line c) = some c.entries := by
      have hphase := hphase.1
      cases c with
      | sort keys =>
        refine ofLine?_sort (fun hnone => hfilled.1 (hnone ▸ rfl)) fun k hk => ?_
        exact h.1 _ (List.mem_map_of_mem hk)
      | limit offset count => exact ofLine?_limit offset count
      | _ => cases hphase
    rw [List.map_cons, read?, if_pos (isPaging_line hphase.1), hline,
      ih hphase.2 hfilled.2 h.2]
    rfl

/-- Lines of other clauses neither sort nor cut: they begin with other words, are indented, or close a
first match. -/
theorem isPaging_of_phase {c : Clause} (h : c.phase ≠ 3) :
    ∀ line ∈ c.lines, isPaging (charsOf line) = false := by
  intro line hline
  have hopens : ∀ w ∈ c.openings, ' ' ∉ w.text.toList ∧ w.text.toList ≠ "SORT".toList ∧
      w.text.toList ≠ "LIMIT".toList := by
    cases c with
    | sort keys => exact absurd rfl h
    | limit offset count => exact absurd rfl h
    | _ => simp only [Clause.openings]; decide
  rcases c.opens_lines line hline with ⟨w, hw, hopen⟩ | hindent | rfl
  · obtain ⟨hblank, hsort, hlimit⟩ := hopens w hw
    rw [isPaging, heading_of_opens hblank hopen, Bool.or_eq_false_iff]
    exact ⟨beq_false_of_ne hsort, beq_false_of_ne hlimit⟩
  · obtain ⟨rest, rfl⟩ : ∃ rest, line = .mark .indent :: rest := by
      cases line with
      | nil => cases hindent
      | cons l rest => exact ⟨rest, congrArg (· :: rest) (Option.some.inj hindent)⟩
    rfl
  · decide

theorem isPaging_result (r : Result) : isPaging (charsOf r.line) = false := by
  rw [isPaging, heading_of_opens (by decide) r.opens_line]
  decide

end Page

end GraphMapper
