import GraphMapper.Proofs.Aql.Lines
import Std.Data.String.ToNat

/-!
# The words of a line

What stands between blanks is a word. The words of pieces with blanks between them are those of
the pieces (`phrase_spaced`), and a piece without blanks and commas is a single one
(`phrase_solid`): expressions, slots, collections and numbers of contained parts are such pieces.

In a list the comma is the end of the word before it. So pairs of words are read one after the
other as long as a comma follows (`pairs`), and the words of a list of pairs give these pairs
(`pairs_listed`).
-/

namespace GraphMapper.Aql

/-! ## Words -/

/-- The pieces between blanks. -/
def words (cs : List Char) : List (List Char) := (Text.splitChars ' ' cs).filter (!·.isEmpty)

/-- A blank in front adds an empty piece, which is no word. -/
theorem words_blank (cs : List Char) : words (' ' :: cs) = words cs := rfl

theorem words_append (cs rest : List Char) :
    words (cs ++ ' ' :: rest) = words cs ++ words rest := by
  rw [words, Text.splitChars_append_cons, List.filter_append, words, words]

theorem words_spaced (pieces : List (List Lexeme)) :
    words (charsOf (spaced pieces)) = pieces.flatMap fun piece => words (charsOf piece) := by
  induction pieces with
  | nil => rfl
  | cons piece rest ih =>
    cases rest with
    | nil => rw [spaced, List.intercalate_singleton, List.flatMap_singleton]
    | cons next others =>
      rw [charsOf_spaced_cons, words_append, ih]
      rfl

/-! ## Pieces that are words -/

/-- A text that blanks and commas can stand around. -/
structure IsSolid (cs : List Char) : Prop where
  ne_nil : cs ≠ []
  blank : ' ' ∉ cs
  comma : ',' ∉ cs

theorem words_of_isSolid {cs : List Char} (h : IsSolid cs) : words cs = [cs] := by
  rw [words, Text.splitChars_of_not_mem h.blank]
  simpa using h.ne_nil

/-- Whether the lexeme may belong to an expression, a slot or a number: the head of a variable, a
dot, an at-sign, or what is neither a word nor a mark. -/
def Lexeme.isSolid : Lexeme → Bool
  | .head _ => true
  | .mark m => m == .dot || m == .atSign
  | l => l.foreign?.isSome

theorem Lexeme.IsContained.not_mem_solid {l : Lexeme} (h : l.IsContained)
    (hsolid : l.isSolid = true) {c : Char} (hkey : Text.isKeyChar c = false) (htick : c ≠ '`')
    (hquote : c ≠ '"') (hat : c ≠ '@') : c ∉ l.text.toList := by
  have hnot : ∀ cs : List Char, cs.all Text.isKeyChar = true → c ∉ cs := by
    intro cs hcs hmem
    rw [List.all_eq_true.mp hcs c hmem] at hkey
    cases hkey
  cases l with
  | word w => cases hsolid
  | head head => exact hnot _ (by cases head <;> decide)
  | mark m =>
    obtain rfl | rfl : m = .dot ∨ m = .atSign := by simpa [Lexeme.isSolid] using hsolid
    · exact hnot _ (by decide)
    · exact mt List.mem_singleton.mp hat
  | _ => exact h.not_mem hkey htick hquote _ rfl

/-- Neither a blank nor a comma stands in solid lexemes. -/
theorem isSolid_charsOf {ls : List Lexeme} (hne : charsOf ls ≠ [])
    (h : ∀ l ∈ ls, l.IsContained ∧ l.isSolid = true) : IsSolid (charsOf ls) := by
  have hnot : ∀ c : Char, Text.isKeyChar c = false → c ≠ '`' → c ≠ '"' → c ≠ '@' →
      c ∉ charsOf ls := by
    intro c hkey htick hquote hat hmem
    obtain ⟨l, hl, hc⟩ := List.mem_flatMap.mp hmem
    exact (h l hl).1.not_mem_solid (h l hl).2 hkey htick hquote hat hc
  constructor
  · exact hne
  · exact hnot _ (by decide) (by decide) (by decide) (by decide)
  · exact hnot _ (by decide) (by decide) (by decide) (by decide)

theorem attributeName_solid (s : String) : (attributeName s).isSolid = true := by
  unfold attributeName
  split <;> rfl

theorem Var.lexemes_solid (v : Var) : ∀ l ∈ v.lexemes, l.isSolid = true := by
  cases v <;> simp [lexemes, Lexeme.isSolid, Lexeme.foreign?]

theorem Part.lexemes_solid (p : Part) : ∀ l ∈ p.lexemes, l.isSolid = true := by
  cases p with
  | var v => exact v.lexemes_solid
  | expr e =>
    cases e with
    | column n =>
      refine List.forall_mem_append.mpr ⟨Var.lexemes_solid _, ?_⟩
      simp [columnLexemes, Lexeme.isSolid, Lexeme.foreign?]
    | field v segments =>
      refine List.forall_mem_append.mpr ⟨v.lexemes_solid, fun l hl => ?_⟩
      obtain ⟨s, -, hl⟩ := List.mem_flatMap.mp hl
      rcases List.mem_pair.mp hl with rfl | rfl
      · rfl
      · exact attributeName_solid s
  | slot s => cases s <;> simp [lexemes, Slot.lexemes, Lexeme.isSolid, Lexeme.foreign?]
  | collection name => exact List.forall_mem_singleton.mpr rfl
  | key name => exact List.forall_mem_singleton.mpr rfl

/-- A contained part is one word. -/
theorem Part.Contained.isSolid {p : Part} (h : p.Contained) : IsSolid (charsOf p.lexemes) := by
  refine isSolid_charsOf ?_ fun l hl => ⟨h.lexemes l hl, p.lexemes_solid l hl⟩
  have hvar : ∀ (v : Var) (rest : List Lexeme), charsOf (v.lexemes ++ rest) ≠ [] := by
    intro v rest
    cases v <;> exact List.cons_ne_nil _ _
  cases h with
  | var v => simpa [Part.lexemes] using hvar v []
  | @expr e _ => cases e <;> exact hvar _ _
  | literal n => exact List.cons_ne_nil _ _
  | named hname => exact List.cons_ne_nil _ _
  | @collection name hname =>
    intro hnone
    have hempty : name.toList = [] := List.append_eq_nil_iff.mp hnone |>.1
    rw [String.toList_eq_nil_iff.mp hempty] at hname
    cases hname
  | key hkey => simp [Part.lexemes, charsOf, Lexeme.text, Json.quote]

theorem isSolid_number (n : Nat) : IsSolid (charsOf [.number n]) := by
  refine isSolid_charsOf ?_ (List.forall_mem_singleton.mpr ⟨Lexeme.isContained_number n, rfl⟩)
  simp [charsOf, Lexeme.text]

theorem ofList_charsOf (ls : List Lexeme) : String.ofList (charsOf ls) = textOf ls := by
  rw [← toList_textOf, String.ofList_toList]

@[simp] theorem textOf_singleton (l : Lexeme) : textOf [l] = l.text := by
  simp [textOf, String.join]

theorem toNat?_number (n : Nat) : (String.ofList (charsOf [.number n])).toNat? = some n := by
  rw [ofList_charsOf, textOf_singleton]
  exact Nat.toNat?_repr n

/-! ## Words as strings -/

/-- The words of a line. -/
def phrase (line : List Char) : List String := (words line).map String.ofList

theorem phrase_append (cs rest : List Char) :
    phrase (cs ++ ' ' :: rest) = phrase cs ++ phrase rest := by
  rw [phrase, words_append, List.map_append, phrase, phrase]

@[simp] theorem phrase_spaced (pieces : List (List Lexeme)) :
    phrase (charsOf (spaced pieces)) = pieces.flatMap fun piece => phrase (charsOf piece) := by
  rw [phrase, words_spaced, List.map_flatMap]
  rfl

theorem phrase_solid {ls : List Lexeme} (h : IsSolid (charsOf ls)) :
    phrase (charsOf ls) = [textOf ls] := by
  rw [phrase, words_of_isSolid h, List.map_singleton, ofList_charsOf]

@[simp] theorem phrase_word {w : Word} (h : w ≠ .breadthFirst) :
    phrase (charsOf [.word w]) = [w.text] := by
  cases w <;> first | rfl | exact absurd rfl h

/-- A mark that is neither a blank nor a line break or an indentation. -/
@[simp] theorem phrase_mark {m : Mark} (h : ' ' ∉ m.text.toList) (hne : m ≠ .lineBreak) :
    phrase (charsOf [.mark m]) = [m.text] := by
  cases m <;> first | rfl | exact absurd rfl hne | exact absurd (by decide) h

theorem phrase_collection {name : String} (h : (Part.collection name).Contained) :
    phrase (charsOf [.name name]) = [name] := by
  have hsolid : IsSolid (charsOf [.name name]) := h.isSolid
  rw [phrase_solid hsolid, textOf_singleton]
  rfl

theorem phrase_var (v : Var) : phrase (charsOf v.lexemes) = [textOf v.lexemes] :=
  phrase_solid (Part.Contained.var v).isSolid

theorem phrase_slot {s : Slot} (h : (Part.slot s).Contained) :
    phrase (charsOf s.lexemes) = [textOf s.lexemes] :=
  phrase_solid h.isSolid

/-- A comma is the end of the word before it. -/
theorem phrase_solid_comma {ls : List Lexeme} (h : IsSolid (charsOf ls)) :
    phrase (charsOf (ls ++ [.mark .comma])) = [textOf ls ++ String.ofList [',']] := by
  have hchars : charsOf (ls ++ [.mark .comma]) = charsOf ls ++ [','] := charsOf_append _ _
  have hblank : ' ' ∉ charsOf ls ++ [','] := by simp [h.blank]
  rw [phrase, hchars, words, Text.splitChars_of_not_mem hblank]
  simp [ofList_charsOf]

theorem phrase_listed_cons (piece next : List Lexeme) (others : List (List Lexeme)) :
    phrase (charsOf (listed (piece :: next :: others))) =
      phrase (charsOf (piece ++ [.mark .comma])) ++ phrase (charsOf (listed (next :: others))) := by
  have hchars : charsOf (listed (piece :: next :: others)) =
      charsOf (piece ++ [.mark .comma]) ++ ' ' :: charsOf (listed (next :: others)) := by
    rw [listed, List.intercalate_cons_cons, charsOf_append, charsOf_append, charsOf_append,
      List.append_assoc, List.append_assoc]
    rfl
  rw [hchars, phrase_append]

/-! ## Lists of pairs -/

/-- A list is read if each member is. -/
theorem mapM_eq_some {α β : Type} {f : α → Option β} {g : α → β} {as : List α}
    (h : ∀ a ∈ as, f a = some (g a)) : as.mapM f = some (as.map g) := by
  induction as with
  | nil => rfl
  | cons a rest ih =>
    obtain ⟨ha, hrest⟩ := List.forall_mem_cons.mp h
    rw [List.mapM_cons, ha, ih hrest]
    rfl

/-- The word before a sign at its end. -/
def before? (sign : Char) (s : String) : Option String :=
  if s.toList.getLast? = some sign then some (String.ofList s.toList.dropLast) else none

theorem before?_append {sign : Char} (s : String) :
    before? sign (s ++ String.ofList [sign]) = some s := by
  have hchars : (s ++ String.ofList [sign]).toList = s.toList ++ [sign] := by simp
  rw [before?, hchars, if_pos (by simp), List.dropLast_concat, String.ofList_toList]

theorem before?_comma_solid {ls : List Lexeme} (h : IsSolid (charsOf ls)) :
    before? ',' (textOf ls) = none := by
  rw [before?, toList_textOf, if_neg]
  exact fun hlast => h.comma (List.mem_of_getLast? hlast)

/-- Pairs of words, each but the last with a comma behind it, and the words after them. -/
def pairs : List String → List (String × String) × List String
  | first :: second :: rest =>
    match before? ',' second with
    | some second => ((first, second) :: (pairs rest).1, (pairs rest).2)
    | none => ([(first, second)], rest)
  | rest => ([], rest)

/-- Pairs that are listed are read as these pairs. -/
theorem pairs_listed {α : Type} {as : List α} {first second : α → List Lexeme} (hne : as ≠ [])
    (h : ∀ a ∈ as, IsSolid (charsOf (first a)) ∧ IsSolid (charsOf (second a)))
    (rest : List String) :
    pairs (phrase (charsOf (listed (as.map fun a => spaced [first a, second a]))) ++ rest) =
      (as.map fun a => (textOf (first a), textOf (second a)), rest) := by
  induction as with
  | nil => exact absurd rfl hne
  | cons a more ih =>
    obtain ⟨⟨hfirst, hsecond⟩, hmore⟩ := List.forall_mem_cons.mp h
    cases more with
    | nil =>
      have hphrase : phrase (charsOf (listed [spaced [first a, second a]])) =
          [textOf (first a), textOf (second a)] := by
        rw [listed, List.intercalate_singleton, phrase_spaced, List.flatMap_cons,
          List.flatMap_singleton, phrase_solid hfirst, phrase_solid hsecond, List.singleton_append]
      rw [List.map_singleton, hphrase, List.cons_append, List.singleton_append, pairs,
        before?_comma_solid hsecond, List.map_singleton]
    | cons next others =>
      have hcomma : spaced [first a, second a] ++ [.mark .comma] =
          spaced [first a, second a ++ [.mark .comma]] := by
        rw [spaced_pair, spaced_pair, List.append_assoc, List.cons_append]
      have hphrase : phrase (charsOf (spaced [first a, second a] ++ [.mark .comma])) =
          [textOf (first a), textOf (second a) ++ String.ofList [',']] := by
        rw [hcomma, phrase_spaced, List.flatMap_cons, List.flatMap_singleton, phrase_solid hfirst,
          phrase_solid_comma hsecond, List.singleton_append]
      have hlater := ih (List.cons_ne_nil _ _) hmore
      simp only [List.map_cons] at hlater ⊢
      rw [phrase_listed_cons, hphrase, List.append_assoc, List.cons_append, List.singleton_append,
        pairs, before?_append, hlater]

end GraphMapper.Aql
