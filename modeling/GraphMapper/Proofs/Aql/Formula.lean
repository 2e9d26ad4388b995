import GraphMapper.Aql.Syntax
import GraphMapper.Aql.Lexeme

/-!
# Reading conditions

The grammar of conditions, as a reader of texts that knows nothing of how they were written.
`tokens?` cuts a text into tokens: words are told from names by the reserved words, in any mix of
capitals and small letters, and backticks make a name of any word. `formula` reads tokens by recursive
descent. From the loosest to the tightest the operators are `OR`, `AND`, `NOT`, and a comparison or
`IN` between two operands; operands are conditions in parentheses, calls, fields, placeholders and
`null`.

Parentheses leave no trace of their own: what is read is a `Formula`, in which operators of one
precedence stand side by side as one group, and a single member without an operator is itself.
-/

namespace GraphMapper.Aql

/-! ## Tokens -/

/-- The words and signs of conditions. -/
inductive Token where
  | name (s : String)
  | slot (name : String)
  | relation (op : Relation)
  | andWord | orWord | notWord | inWord | null
  /-- A reserved word that stands in no condition. -/
  | reserved (s : String)
  | openParen | closeParen | comma | dot
  deriving DecidableEq, Repr

/-- A bare word is a name if it is not reserved. -/
def Token.ofWord (s : String) : Token :=
  let small := Text.toLowerAscii s
  if small = "and" then .andWord
  else if small = "or" then .orWord
  else if small = "not" then .notWord
  else if small = "in" then .inWord
  else if small = "null" then .null
  else if reservedWords.contains small then .reserved s
  else .name s

/-- The identifier at the beginning of a text, as long as it goes on, and what is left. -/
def identifier? : List Char → Option (String × List Char)
  | [] => none
  | c :: rest =>
    if Text.isNameStart c then
      some (String.ofList (c :: rest.takeWhile Text.isNameChar), rest.dropWhile Text.isNameChar)
    else none

/-- The sign at the beginning of a text, and what is left. -/
def sign? : List Char → Option (Token × List Char)
  | '(' :: rest => some (.openParen, rest)
  | ')' :: rest => some (.closeParen, rest)
  | ',' :: rest => some (.comma, rest)
  | '.' :: rest => some (.dot, rest)
  | '=' :: '=' :: rest => some (.relation .equal, rest)
  | '!' :: '=' :: rest => some (.relation .notEqual, rest)
  | '<' :: '=' :: rest => some (.relation .lessEqual, rest)
  | '<' :: rest => some (.relation .less, rest)
  | '>' :: '=' :: rest => some (.relation .greaterEqual, rest)
  | '>' :: rest => some (.relation .greater, rest)
  | _ => none

/-- The token at the beginning of a text, and what is left. -/
def token? : List Char → Option (Token × List Char)
  | '@' :: rest => (identifier? rest).map fun (s, more) => (.slot s, more)
  | '`' :: rest =>
    match identifier? rest with
    | some (s, '`' :: more) => some (.name s, more)
    | _ => none
  | cs => ((identifier? cs).map fun (s, more) => (Token.ofWord s, more)).or (sign? cs)

theorem identifier?_length {cs more : List Char} {s : String} (h : identifier? cs = some (s, more)) :
    more.length < cs.length := by
  unfold identifier? at h
  split at h
  · cases h
  · next c rest =>
    split at h
    · obtain ⟨-, rfl⟩ := Prod.mk.inj (Option.some.inj h)
      have hdrop := (List.dropWhile_suffix (l := rest) Text.isNameChar).length_le
      simp only [List.length_cons]
      omega
    · cases h

theorem sign?_length {cs more : List Char} {t : Token} (h : sign? cs = some (t, more)) :
    more.length < cs.length := by
  unfold sign? at h
  split at h
  case h_11 => cases h
  all_goals
    obtain ⟨-, rfl⟩ := Prod.mk.inj (Option.some.inj h)
    simp only [List.length_cons]
    omega

theorem token?_length {cs more : List Char} {t : Token} (h : token? cs = some (t, more)) :
    more.length < cs.length := by
  unfold token? at h
  split at h
  · obtain ⟨⟨s, left⟩, hname, heq⟩ := Option.map_eq_some_iff.mp h
    obtain ⟨-, rfl⟩ := Prod.mk.inj heq
    exact Nat.lt_succ_of_lt (identifier?_length hname)
  · split at h
    · next hname =>
      obtain ⟨-, rfl⟩ := Prod.mk.inj (Option.some.inj h)
      have hlength := identifier?_length hname
      simp only [List.length_cons] at hlength ⊢
      omega
    · cases h
  · rcases Option.or_eq_some_iff.mp h with hword | ⟨-, hsign⟩
    · obtain ⟨⟨s, left⟩, hname, heq⟩ := Option.map_eq_some_iff.mp hword
      obtain ⟨-, rfl⟩ := Prod.mk.inj heq
      exact identifier?_length hname
    · exact sign?_length hsign

/-- The tokens of a text; blanks only keep them apart. -/
def tokens? : List Char → Option (List Token)
  | [] => some []
  | c :: rest =>
    if c = ' ' then tokens? rest
    else
      match _h : token? (c :: rest) with
      | none => none
      | some (t, more) => (tokens? more).map (t :: ·)
termination_by cs => cs.length
decreasing_by
  · simp
  · exact token?_length _h

/-! ## Formulas -/

/-- A condition as it is read. -/
inductive Formula where
  /-- A variable, or what it holds under a chain of attributes. -/
  | field (var : String) (attributes : List String)
  /-- A placeholder. -/
  | slot (name : String)
  | null
  | call (function : String) (arguments : List Formula)
  | relation (left : Formula) (op : Relation) (right : Formula)
  /-- The left side is one of the values of the right side. -/
  | memberOf (left right : Formula)
  | all (members : List Formula)
  | any (members : List Formula)
  | not (member : Formula)
  deriving Repr

/-- What stands between operators of one precedence; a single member is itself. -/
def Formula.group (join : List Formula → Formula) : List Formula → Formula
  | [f] => f
  | fs => join fs

/-! ## Reading -/

abbrev TokenReader (α : Type) := List Token → Option (α × List Token)

def expect (t : Token) : List Token → Option (List Token)
  | [] => none
  | first :: rest => if first = t then some rest else none

/-- Up to `n` members, at least one, with a token between each two. -/
def separated {α : Type} (read : TokenReader α) (between : Token) : Nat → TokenReader (List α)
  | 0, _ => none
  | n + 1, ts => do
    let (a, rest) ← read ts
    match expect between rest with
    | none => return ([a], rest)
    | some more => do
      let (others, left) ← separated read between n more
      return (a :: others, left)

/-- The attributes behind a variable. -/
def attributes : List Token → List String × List Token
  | .dot :: .name s :: rest => ((attributes rest).map (s :: ·) id)
  | ts => ([], ts)

section

variable (n : Nat) (inner : TokenReader Formula)

/-- An operand; `inner` reads what stands in parentheses. -/
def operand : TokenReader Formula
  | .openParen :: rest => do
    let (f, rest) ← inner rest
    return (f, ← expect .closeParen rest)
  | .name s :: .openParen :: rest => do
    let (arguments, rest) ← separated inner .comma n rest
    return (.call s arguments, ← expect .closeParen rest)
  | .name s :: rest => let (names, rest) := attributes rest; some (.field s names, rest)
  | .slot name :: rest => some (.slot name, rest)
  | .null :: rest => some (.null, rest)
  | _ => none

/-- An operand, or a comparison of two. -/
def comparison : TokenReader Formula := fun ts => do
  let (left, rest) ← operand n inner ts
  match rest with
  | .relation op :: rest => do
    let (right, rest) ← operand n inner rest
    return (.relation left op right, rest)
  | .inWord :: rest => do
    let (right, rest) ← operand n inner rest
    return (.memberOf left right, rest)
  | rest => return (left, rest)

/-- A comparison, or the negation of one, however many times. -/
def negation : TokenReader Formula
  | .notWord :: rest => (negation rest).map (Prod.map .not id)
  | ts => comparison n inner ts

def conjunction : TokenReader Formula := fun ts =>
  (separated (negation n inner) .andWord n ts).map (Prod.map (.group .all) id)

def disjunction : TokenReader Formula := fun ts =>
  (separated (conjunction n inner) .orWord n ts).map (Prod.map (.group .any) id)

end

/-- A condition whose parentheses go less than `n` levels deep and whose groups have at most `n`
members. -/
def formula : Nat → TokenReader Formula
  | 0 => fun _ => none
  | n + 1 => disjunction (n + 1) (formula n)

/-- The condition that a whole text shows. There are no more levels and members than tokens. -/
def Formula.parse? (text : String) : Option Formula := do
  let ts ← tokens? text.toList
  match ← formula (ts.length + 1) ts with
  | (f, []) => some f
  | _ => none

end GraphMapper.Aql
