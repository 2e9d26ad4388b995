import GraphMapper.Proofs.Aql.Contained
import GraphMapper.Proofs.Aql.Formula

/-!
# The tokens of a condition

The text of a condition whose names are identifiers falls into tokens as it was written
(`Test.lexes`): a variable, an attribute and a placeholder give one token each, blanks none, and
nothing runs into what follows it, because after every piece stands a blank, a comma, a dot or a
parenthesis (`Stops`). An attribute that is a reserved word comes back as a name, thanks to its
backticks; a variable is no reserved word.
-/

namespace GraphMapper.Aql

/-! ## Identifiers in front of other things -/

/-- Nothing follows, or a character that goes on with no name and no sign. -/
def Stops (cs : List Char) : Prop := ∀ c ∈ cs.head?, Text.isNameChar c = false ∧ c ≠ '='

theorem stops_nil : Stops [] := fun _ h => nomatch h

theorem stops_cons {c : Char} (h : Text.isNameChar c = false) (hc : c ≠ '=') (cs : List Char) :
    Stops (c :: cs) := by
  intro first hfirst
  obtain rfl := Option.some.inj hfirst
  exact ⟨h, hc⟩

theorem Stops.takeWhile {cs : List Char} (h : Stops cs) : cs.takeWhile Text.isNameChar = [] := by
  cases cs with
  | nil => rfl
  | cons c rest => exact List.takeWhile_cons_of_neg (by simp [(h c rfl).1])

theorem Stops.dropWhile {cs : List Char} (h : Stops cs) : cs.dropWhile Text.isNameChar = cs := by
  cases cs with
  | nil => rfl
  | cons c rest => exact List.dropWhile_cons_of_neg (by simp [(h c rfl).1])

section

variable {s : String} (hs : Text.isIdentifier s = true)
include hs

theorem exists_nameStart : ∃ first more, s.toList = first :: more ∧
    Text.isNameStart first = true ∧ ∀ c ∈ more, Text.isNameChar c = true := by
  unfold Text.isIdentifier at hs
  split at hs
  · cases hs
  · next first more heq =>
    rw [Bool.and_eq_true, List.all_eq_true] at hs
    exact ⟨first, more, heq, hs.1, hs.2⟩

theorem identifier?_append {rest : List Char} (hrest : Stops rest) :
    identifier? (s.toList ++ rest) = some (s, rest) := by
  obtain ⟨first, more, heq, hfirst, hmore⟩ := exists_nameStart hs
  rw [heq, List.cons_append, identifier?, if_pos hfirst, List.takeWhile_append_of_pos hmore,
    List.dropWhile_append_of_pos hmore, hrest.takeWhile, hrest.dropWhile, List.append_nil, ← heq,
    String.ofList_toList]

theorem token?_identifier {rest : List Char} (hrest : Stops rest) :
    token? (s.toList ++ rest) = some (.ofWord s, rest) := by
  have hidentifier := identifier?_append hs hrest
  obtain ⟨first, more, heq, hfirst, -⟩ := exists_nameStart hs
  rw [heq, List.cons_append] at hidentifier ⊢
  unfold token?
  split
  · next hat =>
    rw [(List.cons.inj hat).1] at hfirst
    exact absurd hfirst (by decide)
  · next htick =>
    rw [(List.cons.inj htick).1] at hfirst
    exact absurd hfirst (by decide)
  · rw [hidentifier]
    rfl

end

theorem token?_of_sign {c : Char} (hname : Text.isNameStart c = false) (hat : c ≠ '@')
    (htick : c ≠ '`') (rest : List Char) : token? (c :: rest) = sign? (c :: rest) := by
  unfold token?
  split
  · next heq => exact absurd (List.cons.inj heq).1 hat
  · next heq => exact absurd (List.cons.inj heq).1 htick
  · rw [identifier?, if_neg (by simp [hname])]
    rfl

theorem tokens?_blank (cs : List Char) : tokens? (' ' :: cs) = tokens? cs := by
  rw [tokens?, if_pos rfl]

theorem tokens?_of_token? {cs more : List Char} {t : Token} (h : token? cs = some (t, more)) :
    tokens? cs = (tokens? more).map (t :: ·) := by
  cases cs with
  | nil => cases h
  | cons c rest =>
    have hblank : c ≠ ' ' := by
      rintro rfl
      cases h
    rw [tokens?, if_neg hblank]
    split
    · next hnone => exact absurd (h.symm.trans hnone) (by simp)
    · next hsome =>
      obtain ⟨rfl, rfl⟩ := Prod.mk.inj (Option.some.inj (h.symm.trans hsome))
      rfl

/-! ## Words and names -/

theorem Token.ofWord_of_free {s : String}
    (h : reservedWords.contains (Text.toLowerAscii s) = false) : ofWord s = .name s := by
  have hne : ∀ w, reservedWords.contains w = true → Text.toLowerAscii s ≠ w := by
    rintro w hw heq
    rw [heq, hw] at h
    cases h
  unfold ofWord
  dsimp only
  rw [if_neg (hne "and" (by decide)), if_neg (hne "or" (by decide)), if_neg (hne "not" (by decide)),
    if_neg (hne "in" (by decide)), if_neg (hne "null" (by decide)), h, if_neg Bool.false_ne_true]

/-- No reserved word has a digit. -/
theorem Token.ofWord_of_digit {s : String} {c : Char} (hc : c ∈ s.toList)
    (hdigit : Text.isDigit c = true) : ofWord s = .name s := by
  have hwords : reservedWords.all (fun w => w.toList.all fun c => !Text.isDigit c) = true := by
    decide +kernel
  apply ofWord_of_free
  rw [Bool.eq_false_iff]
  intro hreserved
  have hsmall : Text.lowerAscii c = c := by
    have hnine : '9'.toNat < 'A'.toNat := by decide
    simp only [Text.isDigit, Bool.and_eq_true, decide_eq_true_eq] at hdigit
    rw [Text.lowerAscii, if_neg]
    simp only [Bool.and_eq_true, decide_eq_true_eq]
    omega
  have hmem : c ∈ (Text.toLowerAscii s).toList := by
    rw [Text.toLowerAscii, String.toList_ofList]
    exact List.mem_map.mpr ⟨c, hc, hsmall⟩
  have hletters := List.all_eq_true.mp hwords _ (List.contains_iff_mem.mp hreserved)
  have hnone := List.all_eq_true.mp hletters c hmem
  rw [hdigit] at hnone
  cases hnone

/-- The name is an identifier that is not reserved. -/
structure IsFree (s : String) : Prop where
  identifier : Text.isIdentifier s = true
  name : Token.ofWord s = .name s

theorem Head.isFree (h : Head) : IsFree h.text := by
  cases h <;> exact ⟨by decide, by decide⟩

/-- A head with a number behind it. -/
theorem Head.isFree_numbered (h : Head) (n : Nat) : IsFree (h.text ++ toString n) := by
  have hdigits : ∀ c ∈ (toString n).toList, Text.isDigit c = true :=
    fun c hc => Text.isDigit_of_mem_toString hc
  constructor
  · exact Text.isIdentifier_append h.isFree.identifier fun c hc =>
      Text.isNameChar_of_isDigit (hdigits c hc)
  · have hne : (toString n).toList ≠ [] := by
      have hdigits : Nat.toDigits 10 n ≠ [] := Nat.toDigits_ne_nil
      exact (Nat.toList_repr (n := n)) ▸ hdigits
    obtain ⟨c, hc⟩ := List.exists_mem_of_ne_nil _ hne
    refine Token.ofWord_of_digit ?_ (hdigits c hc)
    rw [String.toList_append]
    exact List.mem_append_right _ hc

theorem textOf_numbered (h : Head) (n : Nat) :
    textOf [.head h, .number n] = h.text ++ toString n := by
  simp [textOf, Lexeme.text, String.join]

/-- What a variable is called in the text. -/
def Var.text (v : Var) : String := textOf v.lexemes

theorem Var.isFree_text (v : Var) : IsFree v.text := by
  unfold text
  cases v with
  | doc => exact Head.isFree .doc
  | hit => exact Head.isFree .hit
  | edge => exact Head.isFree .edge
  | _ n =>
    rw [lexemes, textOf_numbered]
    exact Head.isFree_numbered _ n

/-! ## Lexemes as tokens -/

/-- The lexemes fall into the tokens, whatever follows where they may stop. -/
def Lexes (ls : List Lexeme) (ts : List Token) : Prop :=
  ∀ rest, Stops rest → tokens? (charsOf ls ++ rest) = (tokens? rest).map (ts ++ ·)

/-- The mark stands for the tokens, and what stands before it stops there. -/
structure Mark.Divides (m : Mark) (ts : List Token) : Prop where
  stops : ∀ cs, Stops (m.text.toList ++ cs)
  tokens : ∀ cs, tokens? (m.text.toList ++ cs) = (tokens? cs).map (ts ++ ·)

theorem Mark.divides_blank : Divides .blank [] where
  stops cs := stops_cons (by decide) (by decide) cs
  tokens cs := by
    change tokens? (' ' :: cs) = _
    rw [tokens?_blank]
    exact Option.map_id'.symm

/-- A mark of one character that is a token. -/
theorem Mark.divides_of_sign {m : Mark} {c : Char} {t : Token} (hm : m.text.toList = [c])
    (hname : Text.isNameChar c = false) (heq : c ≠ '=')
    (h : ∀ cs, token? (c :: cs) = some (t, cs)) : m.Divides [t] where
  stops cs := hm ▸ stops_cons hname heq cs
  tokens cs := hm ▸ tokens?_of_token? (h cs)

theorem Mark.divides_openParen : Divides .openParen [.openParen] :=
  divides_of_sign rfl (by decide) (by decide) fun _ => rfl

theorem Mark.divides_closeParen : Divides .closeParen [.closeParen] :=
  divides_of_sign rfl (by decide) (by decide) fun _ => rfl

theorem Mark.divides_comma : Divides .comma [.comma] :=
  divides_of_sign rfl (by decide) (by decide) fun _ => rfl

theorem Mark.divides_dot : Divides .dot [.dot] :=
  divides_of_sign rfl (by decide) (by decide) fun _ => rfl

namespace Lexes

variable {ls ls' : List Lexeme} {ts ts' between : List Token}

theorem tokens?_eq (h : Lexes ls ts) : tokens? (textOf ls).toList = some ts := by
  have hnil : tokens? [] = some [] := by rw [tokens?]
  have hall := h [] stops_nil
  rwa [List.append_nil, ← toList_textOf, hnil, Option.map_some, List.append_nil] at hall

theorem nil : Lexes [] [] := fun _ _ => Option.map_id'.symm

/-- Pieces on both sides of a mark. -/
theorem append (h : Lexes ls ts) {m : Mark} (hm : m.Divides between) (h' : Lexes ls' ts') :
    Lexes (ls ++ .mark m :: ls') (ts ++ (between ++ ts')) := by
  intro rest hrest
  have hchars : charsOf (ls ++ .mark m :: ls') ++ rest =
      charsOf ls ++ (m.text.toList ++ (charsOf ls' ++ rest)) := by
    simp [charsOf, Lexeme.text]
  rw [hchars, h _ (hm.stops _), hm.tokens, h' rest hrest, Option.map_map, Option.map_map]
  congr 1
  funext us
  simp

theorem mark_cons {m : Mark} (hm : m.Divides between) (h : Lexes ls ts) :
    Lexes (.mark m :: ls) (between ++ ts) := nil.append hm h

/-- A word or a name without backticks. -/
theorem word {s : String} (hs : Text.isIdentifier s = true) (htext : charsOf ls = s.toList) :
    Lexes ls [.ofWord s] := by
  intro rest hrest
  rw [htext]
  exact tokens?_of_token? (token?_identifier hs hrest)

/-- An attribute is a name, be it a reserved word or not. -/
theorem attributeName {s : String} (hs : Text.isIdentifier s = true) :
    Lexes [Aql.attributeName s] [.name s] := by
  unfold Aql.attributeName
  split
  · intro rest _
    have hchars : charsOf [.ticked s] ++ rest = '`' :: (s.toList ++ '`' :: rest) := by
      simp [charsOf, Lexeme.text]
    have htick := identifier?_append hs (stops_cons (c := '`') (by decide) (by decide) rest)
    rw [hchars]
    apply tokens?_of_token?
    rw [token?, htick]
    rfl
  · next hfree =>
    rw [Bool.not_eq_true] at hfree
    exact Token.ofWord_of_free hfree ▸ word hs (by simp [charsOf, Lexeme.text])

/-- A name that nobody reserves. -/
theorem free {s : String} (hs : IsFree s) (htext : charsOf ls = s.toList) : Lexes ls [.name s] :=
  hs.name ▸ word hs.identifier htext

theorem var (v : Var) : Lexes v.lexemes [.name v.text] :=
  free v.isFree_text (toList_textOf v.lexemes).symm

theorem slot {s : Slot} (hs : (Part.slot s).Contained) : Lexes s.lexemes [.slot s.name] := by
  have hname : Text.isIdentifier s.name = true := by
    cases hs with
    | literal n => exact (Head.literal.isFree_numbered n).identifier
    | named hname => exact hname
  intro rest hrest
  have hchars : charsOf s.lexemes = '@' :: s.name.toList := by
    have hslot := charsOf_slot s []
    rw [List.append_nil] at hslot
    exact hslot.trans (congrArg _ (List.append_nil _))
  rw [hchars]
  apply tokens?_of_token?
  rw [List.cons_append, token?, identifier?_append hname hrest]
  rfl

/-- Attributes, each behind a dot. -/
theorem attributes {segments : List String}
    (h : ∀ s ∈ segments, Text.isIdentifier s = true) (hls : Lexes ls ts) :
    Lexes (ls ++ segments.flatMap fun s => [.mark .dot, Aql.attributeName s])
      (ts ++ segments.flatMap fun s => [.dot, .name s]) := by
  induction segments generalizing ls ts with
  | nil => simpa using hls
  | cons s rest ih =>
    obtain ⟨hs, hrest⟩ := List.forall_mem_cons.mp h
    have hfirst := ih hrest (hls.append Mark.divides_dot (attributeName hs))
    simpa using hfirst

end Lexes

/-! ## Conditions as tokens -/

def Expr.tokens : Expr → List Token
  | field v segments => .name v.text :: segments.flatMap fun s => [.dot, .name s]
  | column n => [.name Var.hit.text, .dot, .name (textOf (columnLexemes n))]

theorem Expr.lexes {e : Expr} (h : (Part.expr e).Contained) : Lexes e.lexemes e.tokens := by
  cases h with
  | expr hsegments =>
    cases e with
    | field v segments => exact (Lexes.var v).attributes hsegments
    | column n =>
      have hcolumn : IsFree (textOf (columnLexemes n)) := by
        rw [columnLexemes, textOf_numbered]
        exact Head.column.isFree_numbered n
      exact (Lexes.var .hit).append Mark.divides_dot (.free hcolumn (toList_textOf _).symm)

namespace Test

mutual
/-- The tokens of a condition. -/
def tokens : Test → List Token
  | relation left op right => left.tokens ++ [.relation op, .slot right.name]
  | memberOf field values => field.tokens ++ [.inWord, .slot values.name]
  | hasMember field value => .slot value.name :: .inWord :: field.tokens
  | contains field part =>
    .name Word.contains.text :: .openParen :: (field.tokens ++ [.comma, .slot part.name, .closeParen])
  | startsWith field start =>
    .name Word.startsWith.text :: .openParen ::
      (field.tokens ++ [.comma, .slot start.name, .closeParen])
  | isNull field negated =>
    field.tokens ++ [.relation (if negated then .notEqual else .equal), .null]
  | all members => .openParen :: ([Token.andWord].intercalate (memberTokens members) ++ [.closeParen])
  | any members => .openParen :: ([Token.orWord].intercalate (memberTokens members) ++ [.closeParen])
  | not member => .notWord :: .openParen :: (member.tokens ++ [.closeParen])
def memberTokens : List Test → List (List Token)
  | [] => []
  | t :: rest => t.tokens :: memberTokens rest
end

end Test

namespace Lexes

variable {ls ls' : List Lexeme} {ts ts' : List Token}

/-- A sign of comparison is not longer than it was written. -/
theorem relation (op : Relation) : Lexes [.mark op.mark] [.relation op] := by
  intro rest hrest
  have hchars : charsOf [.mark op.mark] = op.mark.text.toList := by simp [charsOf, Lexeme.text]
  rw [hchars]
  apply tokens?_of_token?
  cases rest with
  | nil => cases op <;> rfl
  | cons c more =>
    have hc : c ≠ '=' := (hrest c rfl).2
    cases op with
    | less =>
      have hsign : token? ('<' :: c :: more) = some (.relation .less, c :: more) := by
        rw [token?_of_sign (by decide) (by decide) (by decide)]
        simp [sign?, hc]
      exact hsign
    | greater =>
      have hsign : token? ('>' :: c :: more) = some (.relation .greater, c :: more) := by
        rw [token?_of_sign (by decide) (by decide) (by decide)]
        simp [sign?, hc]
      exact hsign
    | _ => rfl

/-- Two pieces with a blank between them. -/
theorem blank (h : Lexes ls ts) (h' : Lexes ls' ts') :
    Lexes (ls ++ .mark .blank :: ls') (ts ++ ts') := h.append Mark.divides_blank h'

/-- A piece in parentheses. -/
theorem parenthesised (h : Lexes ls ts) :
    Lexes (Aql.parenthesised ls) (.openParen :: (ts ++ [.closeParen])) :=
  mark_cons Mark.divides_openParen (h.append Mark.divides_closeParen nil)

/-- An infix operator. -/
theorem spaced {op : List Lexeme} {t : Token} (h : Lexes ls ts) (hop : Lexes op [t])
    (h' : Lexes ls' ts') : Lexes (Aql.spaced [ls, op, ls']) (ts ++ t :: ts') := by
  have hall := h.blank (hop.blank h')
  simpa [Aql.spaced, List.intercalate] using hall

/-- A call with two arguments. -/
theorem call {w : Word} (hw : IsFree w.text) (h : Lexes ls ts) (h' : Lexes ls' ts') :
    Lexes (Aql.call w [ls, ls'])
      (.name w.text :: .openParen :: (ts ++ .comma :: (ts' ++ [.closeParen]))) := by
  have harguments : Lexes (listed [ls, ls']) (ts ++ .comma :: ts') := by
    have hall := h.append Mark.divides_comma (mark_cons Mark.divides_blank h')
    simpa [listed, List.intercalate] using hall
  have hfunction : Lexes [.word w] [.name w.text] := free hw (by simp [charsOf, Lexeme.text])
  have hall := hfunction.append Mark.divides_openParen
    (harguments.append Mark.divides_closeParen nil)
  simpa [Aql.call, Aql.parenthesised] using hall

/-- A word of the language that is an operator or a constant. -/
theorem operator {w : Word} {t : Token} (hword : Text.isIdentifier w.text = true)
    (ht : Token.ofWord w.text = t) : Lexes [.word w] [t] :=
  ht ▸ word hword (by simp [charsOf, Lexeme.text])

/-- Pieces with an operator between each two, in parentheses. -/
theorem grouped {w : Word} {t : Token} (hw : Lexes [.word w] [t])
    {pieces : List (List Lexeme)} {tokens : List (List Token)}
    (h : List.Forall₂ Lexes pieces tokens) :
    Lexes (Aql.grouped w pieces) (.openParen :: ([t].intercalate tokens ++ [.closeParen])) := by
  refine parenthesised ?_
  induction h with
  | nil => exact nil
  | @cons piece ts pieces tokens hpiece hrest ih =>
    cases hrest with
    | nil => simpa using hpiece
    | cons hnext hothers =>
      rw [List.intercalate_cons_cons, List.intercalate_cons_cons]
      have hall := hpiece.blank (hw.blank ih)
      simpa using hall

end Lexes

namespace Test

theorem contained_pair {p q : Part} (h : ∀ r ∈ [p, q], r.Contained) :
    p.Contained ∧ q.Contained := by
  simpa using h

mutual
/-- The text of a condition of contained parts falls into the tokens of the condition. -/
theorem lexes : (t : Test) → (∀ p ∈ t.parts, p.Contained) → Lexes t.lexemes t.tokens
  | relation left op right, h => by
    obtain ⟨hleft, hright⟩ := contained_pair h
    exact (Expr.lexes hleft).spaced (.relation op) (.slot hright)
  | memberOf field values, h => by
    obtain ⟨hfield, hvalues⟩ := contained_pair h
    exact (Expr.lexes hfield).spaced (.operator (by decide) (by decide)) (.slot hvalues)
  | hasMember field value, h => by
    obtain ⟨hvalue, hfield⟩ := contained_pair h
    exact (Lexes.slot hvalue).spaced (.operator (by decide) (by decide)) (Expr.lexes hfield)
  | contains field part, h => by
    obtain ⟨hfield, hpart⟩ := contained_pair h
    exact .call ⟨by decide, by decide⟩ (Expr.lexes hfield) (.slot hpart)
  | startsWith field start, h => by
    obtain ⟨hfield, hstart⟩ := contained_pair h
    exact .call ⟨by decide, by decide⟩ (Expr.lexes hfield) (.slot hstart)
  | isNull field negated, h => by
    have hfield := List.forall_mem_singleton.mp h
    cases negated
    · exact (Expr.lexes hfield).spaced (.relation .equal) (.operator (by decide) (by decide))
    · exact (Expr.lexes hfield).spaced (.relation .notEqual) (.operator (by decide) (by decide))
  | all members, h => .grouped (.operator (by decide) (by decide)) (memberLexes members h)
  | any members, h => .grouped (.operator (by decide) (by decide)) (memberLexes members h)
  | not member, h => by
    have hnot : Lexes [.word .notWord] [.notWord] := .operator (by decide) (by decide)
    have hall := hnot.blank (lexes member h).parenthesised
    simpa [lexemes, tokens, spaced, List.intercalate] using hall
theorem memberLexes : (ts : List Test) → (∀ p ∈ memberParts ts, p.Contained) →
    List.Forall₂ Lexes (memberLexemes ts) (memberTokens ts)
  | [], _ => .nil
  | t :: rest, h => by
    obtain ⟨hfirst, hrest⟩ := List.forall_mem_append.mp h
    exact .cons (lexes t hfirst) (memberLexes rest hrest)
end

end Test

end GraphMapper.Aql
