import GraphMapper.Proofs.Aql.Tokens

/-!
# Conditions are read as they were written

A condition whose groups are not empty is read back from its tokens (`Test.negation_tokens`), whatever
follows that ends a comparison. The induction is on the condition, with room for as many levels and
members as there are tokens: an expression and a placeholder are operands, a leaf is a comparison or a
call, and what stands in parentheses is read one level deeper.

What comes back is the condition as a formula (`Test.formula`), in which a group of one member is
that member.
-/

namespace GraphMapper.Aql

/-! ## Conditions as formulas -/

def Expr.formula : Expr → Formula
  | field v segments => .field v.text segments
  | column n => .field Var.hit.text [textOf (columnLexemes n)]

namespace Test

mutual
/-- The condition as it is read. -/
def formula : Test → Formula
  | relation left op right => .relation left.formula op (.slot right.name)
  | memberOf field values => .memberOf field.formula (.slot values.name)
  | hasMember field value => .memberOf (.slot value.name) field.formula
  | contains field part => .call Word.contains.text [field.formula, .slot part.name]
  | startsWith field start => .call Word.startsWith.text [field.formula, .slot start.name]
  | isNull field negated =>
    .relation field.formula (if negated then .notEqual else .equal) .null
  | all members => .group .all (memberFormulas members)
  | any members => .group .any (memberFormulas members)
  | not member => .not member.formula
def memberFormulas : List Test → List Formula
  | [] => []
  | t :: rest => t.formula :: memberFormulas rest
end

mutual
/-- No group is empty. -/
def Filled : Test → Prop
  | all members => members ≠ [] ∧ MembersFilled members
  | any members => members ≠ [] ∧ MembersFilled members
  | not member => member.Filled
  | _ => True
def MembersFilled : List Test → Prop
  | [] => True
  | t :: rest => t.Filled ∧ MembersFilled rest
end

end Test

/-! ## What ends operands and comparisons -/

/-- Nothing follows, or a token with which no operand goes on. -/
def EndsOperand (rest : List Token) : Prop := ∀ t ∈ rest.head?, t ≠ .dot ∧ t ≠ .openParen

/-- Nothing follows, or a token with which no comparison goes on. -/
def EndsComparison (rest : List Token) : Prop :=
  ∀ t ∈ rest.head?, t ∈ [Token.closeParen, .comma, .andWord, .orWord]

/-- Nothing follows, or a token with which no conjunction goes on. -/
def EndsConjunction (rest : List Token) : Prop :=
  ∀ t ∈ rest.head?, t ∈ [Token.closeParen, .comma, .orWord]

/-- Nothing follows, or a token with which no condition goes on. -/
def EndsFormula (rest : List Token) : Prop := ∀ t ∈ rest.head?, t ∈ [Token.closeParen, .comma]

variable {rest : List Token}

theorem EndsFormula.conjunction (h : EndsFormula rest) : EndsConjunction rest := by
  intro t ht
  have hmem := h t ht
  simp only [List.mem_cons, List.not_mem_nil, or_false] at hmem ⊢
  tauto

theorem EndsConjunction.comparison (h : EndsConjunction rest) : EndsComparison rest := by
  intro t ht
  have hmem := h t ht
  simp only [List.mem_cons, List.not_mem_nil, or_false] at hmem ⊢
  tauto

theorem EndsComparison.operand (h : EndsComparison rest) : EndsOperand rest := by
  intro t ht
  have hmem := h t ht
  simp only [List.mem_cons, List.not_mem_nil, or_false] at hmem
  rcases hmem with rfl | rfl | rfl | rfl <;> exact ⟨by simp, by simp⟩

/-! ## Members -/

theorem expect_self (t : Token) (rest : List Token) : expect t (t :: rest) = some rest := by
  rw [expect, if_pos rfl]

theorem expect_eq_none {t : Token} (h : ∀ u ∈ rest.head?, u ≠ t) : expect t rest = none := by
  cases rest with
  | nil => rfl
  | cons first others => rw [expect, if_neg (h first rfl)]

section

variable {α : Type} {read : TokenReader α} {between : Token}

/-- A single member is read when nothing stands behind it that goes before another one. -/
theorem separated_one {ts : List Token} {a : α} (h : read ts = some (a, rest))
    (hrest : ∀ t ∈ rest.head?, t ≠ between) (n : Nat) :
    separated read between (n + 1) ts = some ([a], rest) := by
  simp [separated, h, expect_eq_none hrest]

/-- Members that are read one by one are read with a token between each two. -/
theorem separated_intercalate {P : List Token → Prop} {pieces : List (List Token)} {as : List α}
    (hbetween : ∀ more, P (between :: more)) (hrest : P rest)
    (hend : ∀ t ∈ rest.head?, t ≠ between) (hne : pieces ≠ [])
    (h : List.Forall₂ (fun ts a => ∀ rest, P rest → read (ts ++ rest) = some (a, rest)) pieces as)
    {n : Nat} (hn : pieces.length ≤ n) :
    separated read between n ([between].intercalate pieces ++ rest) = some (as, rest) := by
  induction h generalizing n with
  | nil => exact absurd rfl hne
  | @cons ts a pieces as hfirst hothers ih =>
    cases n with
    | zero => exact absurd hn (Nat.not_succ_le_zero _)
    | succ n =>
      cases hothers with
      | nil =>
        rw [List.intercalate_singleton]
        exact separated_one (hfirst rest hrest) hend n
      | cons hnext hothers =>
        have hmore := ih (List.cons_ne_nil _ _) (Nat.le_of_succ_le_succ hn)
        rw [List.intercalate_cons_cons, List.append_assoc, List.append_assoc,
          List.singleton_append, separated, hfirst _ (hbetween _)]
        simp [expect_self, hmore]

end

/-! ## Operands -/

theorem attributes_segments (segments : List String) (hrest : EndsOperand rest) :
    attributes ((segments.flatMap fun s => [.dot, .name s]) ++ rest) = (segments, rest) := by
  induction segments with
  | nil =>
    cases rest with
    | nil => rfl
    | cons t others =>
      rw [List.flatMap_nil, List.nil_append]
      unfold attributes
      split
      · next heq => exact absurd (List.cons.inj heq).1 (hrest t rfl).1
      · rfl
  | cons s segments ih => simp [attributes, ih]

section

variable {n : Nat} {inner : TokenReader Formula} {ts : List Token} {f : Formula}

theorem operand_expr (e : Expr) (hrest : EndsOperand rest) :
    operand n inner (e.tokens ++ rest) = some (e.formula, rest) := by
  have hfield : ∀ name segments, operand n inner (.name name :: (segments.flatMap fun s =>
      [.dot, .name s]) ++ rest) = some (.field name segments, rest) := by
    intro name segments
    have hcall : ∀ more, (segments.flatMap fun s => [Token.dot, .name s]) ++ rest ≠
        .openParen :: more := by
      intro more heq
      cases segments with
      | nil =>
        obtain rfl : rest = .openParen :: more := heq
        exact (hrest .openParen rfl).2 rfl
      | cons s segments => cases heq
    rw [List.cons_append]
    unfold operand
    split
    · next heq => cases heq
    · next heq => exact absurd (List.cons.inj heq).2 (hcall _)
    · next heq =>
      obtain ⟨hname, rfl⟩ := List.cons.inj heq
      obtain rfl := Token.name.inj hname
      rw [attributes_segments segments hrest]
    · next heq => cases heq
    · next heq => cases heq
    · next hname _ _ => exact (hname _ _ rfl).elim
  cases e with
  | field v segments => exact hfield v.text segments
  | column k => exact hfield Var.hit.text [textOf (columnLexemes k)]

theorem operand_slot (name : String) (rest : List Token) :
    operand n inner (.slot name :: rest) = some (.slot name, rest) := rfl

/-- What stands in parentheses is an operand. -/
theorem operand_parenthesised
    (h : inner (ts ++ .closeParen :: rest) = some (f, .closeParen :: rest)) :
    operand n inner (.openParen :: (ts ++ [.closeParen]) ++ rest) = some (f, rest) := by
  simp [operand, h, expect_self]

/-- An operand without another one is a comparison. -/
theorem comparison_of_operand (h : operand n inner ts = some (f, rest))
    (hrest : EndsComparison rest) : comparison n inner ts = some (f, rest) := by
  rw [comparison, h]
  cases rest with
  | nil => rfl
  | cons t others =>
    have ht := hrest t rfl
    simp only [List.mem_cons, List.not_mem_nil, or_false] at ht
    rcases ht with rfl | rfl | rfl | rfl <;> rfl

theorem comparison_memberOf {left right : Formula} {more : List Token}
    (h : operand n inner ts = some (left, .inWord :: more))
    (h' : operand n inner more = some (right, rest)) :
    comparison n inner ts = some (.memberOf left right, rest) := by
  simp [comparison, h, h']

theorem negation_of_comparison (h : comparison n inner ts = some (f, rest))
    (hts : ts.head? ≠ some .notWord) : negation n inner ts = some (f, rest) := by
  unfold negation
  split
  · exact absurd rfl hts
  · exact h

theorem endsOperand_cons {t : Token} (ht : t ≠ .dot ∧ t ≠ .openParen) (more : List Token) :
    EndsOperand (t :: more) :=
  fun _ hu => Option.some.inj hu ▸ ht

theorem Expr.head?_append (e : Expr) (more : List Token) :
    (e.tokens ++ more).head? ≠ some .notWord := by
  cases e <;> simp [tokens]

/-- An expression is compared with an operand. -/
theorem negation_relation (left : Expr) (op : Relation) {right : Formula}
    (h : operand n inner ts = some (right, rest)) :
    negation n inner (left.tokens ++ .relation op :: ts) =
      some (.relation left.formula op right, rest) := by
  have hleft : operand n inner (left.tokens ++ .relation op :: ts) =
      some (left.formula, .relation op :: ts) :=
    operand_expr left (endsOperand_cons (by simp) ts)
  refine negation_of_comparison ?_ (left.head?_append _)
  simp [comparison, hleft, h]

theorem conjunction_of_negation (h : negation (n + 1) inner ts = some (f, rest))
    (hrest : EndsConjunction rest) : conjunction (n + 1) inner ts = some (f, rest) := by
  have hend : ∀ t ∈ rest.head?, t ≠ Token.andWord := by
    rintro t ht rfl
    simpa using hrest _ ht
  rw [conjunction, separated_one h hend n]
  rfl

theorem disjunction_of_conjunction (h : conjunction (n + 1) inner ts = some (f, rest))
    (hrest : EndsFormula rest) : disjunction (n + 1) inner ts = some (f, rest) := by
  have hend : ∀ t ∈ rest.head?, t ≠ Token.orWord := by
    rintro t ht rfl
    simpa using hrest _ ht
  rw [disjunction, separated_one h hend n]
  rfl

theorem formula_of_negation {d : Nat} (h : negation (d + 1) (formula d) ts = some (f, rest))
    (hrest : EndsFormula rest) : formula (d + 1) ts = some (f, rest) :=
  disjunction_of_conjunction (conjunction_of_negation h hrest.conjunction) hrest

theorem formula_of_operand {d : Nat} (h : operand (d + 1) (formula d) ts = some (f, rest))
    (hrest : EndsFormula rest) (hts : ts.head? ≠ some .notWord) :
    formula (d + 1) ts = some (f, rest) := by
  have hcomparison := comparison_of_operand h hrest.conjunction.comparison
  exact formula_of_negation (negation_of_comparison hcomparison hts) hrest

/-- A condition in parentheses is one that nothing can take apart. -/
theorem negation_parenthesised
    (h : inner (ts ++ .closeParen :: rest) = some (f, .closeParen :: rest))
    (hrest : EndsComparison rest) :
    negation n inner (.openParen :: (ts ++ [.closeParen]) ++ rest) = some (f, rest) :=
  negation_of_comparison (comparison_of_operand (operand_parenthesised h) hrest) (by simp)

end

theorem endsFormula_cons {t : Token} (ht : t ∈ [Token.closeParen, .comma]) (more : List Token) :
    EndsFormula (t :: more) :=
  fun _ hu => Option.some.inj hu ▸ ht

/-- A call of a function with an expression and a placeholder. -/
theorem operand_call (function : String) (e : Expr) (name : String) (rest : List Token) (d : Nat) :
    operand (d + 2) (formula (d + 1))
      (.name function :: .openParen :: (e.tokens ++ [.comma, .slot name, .closeParen]) ++ rest) =
        some (.call function [e.formula, .slot name], rest) := by
  have hexpr : ∀ rest, EndsFormula rest →
      formula (d + 1) (e.tokens ++ rest) = some (e.formula, rest) := fun rest hrest =>
    formula_of_operand (operand_expr e hrest.conjunction.comparison.operand) hrest
      (e.head?_append rest)
  have hslot : ∀ rest, EndsFormula rest →
      formula (d + 1) ([.slot name] ++ rest) = some (.slot name, rest) := fun rest hrest =>
    formula_of_operand (operand_slot name rest) hrest (by simp)
  have harguments : separated (formula (d + 1)) .comma (d + 2)
      ([Token.comma].intercalate [e.tokens, [.slot name]] ++ .closeParen :: rest) =
        some ([e.formula, .slot name], .closeParen :: rest) :=
    separated_intercalate (endsFormula_cons (by simp)) (endsFormula_cons (by simp) rest) (by simp)
      (List.cons_ne_nil _ _) (.cons hexpr (.cons hslot .nil)) (by simp)
  have htokens : .name function :: .openParen :: (e.tokens ++ [.comma, .slot name, .closeParen]) ++
      rest = .name function :: .openParen ::
        ([Token.comma].intercalate [e.tokens, [.slot name]] ++ .closeParen :: rest) := by
    simp [List.intercalate]
  rw [htokens, operand, harguments]
  simp [expect_self]

/-! ## Groups -/

/-- The pieces are read one by one, in room for `d` tokens. -/
def ReadEach (d : Nat) : List (List Token) → List Formula → Prop :=
  List.Forall₂ fun ts f => ∀ rest, EndsComparison rest →
    negation (d + 1) (formula d) (ts ++ rest) = some (f, rest)

section

variable {d : Nat} {pieces : List (List Token)} {fs : List Formula} (h : ReadEach d pieces fs)
  (hne : pieces ≠ []) (hn : pieces.length ≤ d + 1)
include h hne hn

theorem formula_all (rest : List Token) :
    formula (d + 1) ([.andWord].intercalate pieces ++ .closeParen :: rest) =
      some (.group .all fs, .closeParen :: rest) := by
  have hend : EndsFormula (.closeParen :: rest) := endsFormula_cons (by simp) rest
  have hmore : ∀ more, EndsComparison (.andWord :: more) := fun _ _ ht =>
    Option.some.inj ht ▸ by simp
  refine disjunction_of_conjunction ?_ hend
  rw [conjunction, separated_intercalate hmore hend.conjunction.comparison (by simp) hne h hn]
  rfl

theorem formula_any (rest : List Token) :
    formula (d + 1) ([.orWord].intercalate pieces ++ .closeParen :: rest) =
      some (.group .any fs, .closeParen :: rest) := by
  have hend : EndsFormula (.closeParen :: rest) := endsFormula_cons (by simp) rest
  have hmore : ∀ more, EndsConjunction (.orWord :: more) := fun _ _ ht =>
    Option.some.inj ht ▸ by simp
  have heach : List.Forall₂ (fun ts f => ∀ rest, EndsConjunction rest →
      conjunction (d + 1) (formula d) (ts ++ rest) = some (f, rest)) pieces fs :=
    h.imp fun ts f hread rest hrest =>
      conjunction_of_negation (hread rest hrest.comparison) hrest
  rw [formula, disjunction, separated_intercalate hmore hend.conjunction (by simp) hne heach hn]
  rfl

end

/-! ## Conditions -/

theorem length_le_intercalate (between : Token) (pieces : List (List Token)) :
    (∀ piece ∈ pieces, piece.length ≤ ([between].intercalate pieces).length) ∧
      pieces.length ≤ ([between].intercalate pieces).length + 1 := by
  induction pieces with
  | nil => simp
  | cons piece rest ih =>
    cases rest with
    | nil => simp
    | cons next others =>
      rw [List.intercalate_cons_cons, List.forall_mem_cons]
      simp only [List.length_append, List.length_cons, List.length_nil] at ih ⊢
      refine ⟨⟨by omega, fun piece hpiece => ?_⟩, by omega⟩
      have hle := ih.1 piece hpiece
      omega

/-- The room for a group in parentheses is enough for each of its members. -/
theorem length_of_group {between : Token} {pieces : List (List Token)} {d : Nat}
    (hd : (Token.openParen :: ([between].intercalate pieces ++ [.closeParen])).length ≤ d + 1) :
    (∀ piece ∈ pieces, piece.length ≤ d) ∧ pieces.length ≤ d + 1 := by
  obtain ⟨heach, hcount⟩ := length_le_intercalate between pieces
  simp only [List.length_cons, List.length_append, List.length_nil] at hd
  refine ⟨fun piece hpiece => ?_, by omega⟩
  have hle := heach piece hpiece
  omega

namespace Test

theorem memberTokens_ne_nil {members : List Test} (h : members ≠ []) :
    memberTokens members ≠ [] := by
  cases members with
  | nil => exact absurd rfl h
  | cons t rest => exact List.cons_ne_nil _ _

mutual
/-- A condition without empty groups is read back from its tokens. -/
theorem negation_tokens : (t : Test) → t.Filled → ∀ d, t.tokens.length ≤ d → ∀ rest,
    EndsComparison rest → negation (d + 1) (Aql.formula d) (t.tokens ++ rest) = some (t.formula, rest)
  | relation left op right, _, d, _, rest, _ => by
    rw [tokens, List.append_assoc]
    exact negation_relation left op (operand_slot _ rest)
  | memberOf field values, _, d, _, rest, _ => by
    rw [tokens, List.append_assoc]
    exact negation_of_comparison
      (comparison_memberOf (operand_expr field (endsOperand_cons (by simp) _)) (operand_slot _ rest))
      (field.head?_append _)
  | hasMember field value, _, d, _, rest, hrest => by
    rw [tokens]
    exact negation_of_comparison
      (comparison_memberOf (operand_slot _ _) (operand_expr field hrest.operand)) (by simp)
  | contains field part, _, d, hd, rest, hrest => by
    cases d with
    | zero => simp [tokens] at hd
    | succ d =>
      rw [tokens]
      exact negation_of_comparison
        (comparison_of_operand (operand_call _ field part.name rest d) hrest) (by simp)
  | startsWith field start, _, d, hd, rest, hrest => by
    cases d with
    | zero => simp [tokens] at hd
    | succ d =>
      rw [tokens]
      exact negation_of_comparison
        (comparison_of_operand (operand_call _ field start.name rest d) hrest) (by simp)
  | isNull field negated, _, d, _, rest, _ => by
    rw [tokens, List.append_assoc]
    exact negation_relation field _ rfl
  | all members, h, d, hd, rest, hrest => by
    cases d with
    | zero => simp [tokens] at hd
    | succ d =>
      obtain ⟨heach, hcount⟩ := length_of_group hd
      exact negation_parenthesised (formula_all (readEach members h.2 d heach)
        (memberTokens_ne_nil h.1) hcount rest) hrest
  | any members, h, d, hd, rest, hrest => by
    cases d with
    | zero => simp [tokens] at hd
    | succ d =>
      obtain ⟨heach, hcount⟩ := length_of_group hd
      exact negation_parenthesised (formula_any (readEach members h.2 d heach)
        (memberTokens_ne_nil h.1) hcount rest) hrest
  | not member, h, d, hd, rest, hrest => by
    cases d with
    | zero => simp [tokens] at hd
    | succ d =>
      have hroom : member.tokens.length ≤ d := by
        simp only [tokens, List.length_cons, List.length_append, List.length_nil] at hd
        omega
      have hmember := formula_of_negation
        (negation_tokens member h d hroom (.closeParen :: rest)
          (endsFormula_cons (by simp) rest).conjunction.comparison)
        (endsFormula_cons (by simp) rest)
      rw [tokens, List.cons_append, negation, negation_parenthesised hmember hrest]
      rfl
theorem readEach : (ts : List Test) → MembersFilled ts → ∀ d,
    (∀ tokens ∈ memberTokens ts, tokens.length ≤ d) → ReadEach d (memberTokens ts) (memberFormulas ts)
  | [], _, _, _ => .nil
  | t :: rest, h, d, hd => by
    obtain ⟨ht, hrest⟩ := List.forall_mem_cons.mp hd
    exact .cons (negation_tokens t h.1 d ht) (readEach rest h.2 d hrest)
end

/-- The text of a condition shows the condition. -/
theorem parse?_text {t : Test} (hfilled : t.Filled) (h : ∀ p ∈ t.parts, p.Contained) :
    Formula.parse? (textOf t.lexemes) = some t.formula := by
  have hnone : EndsFormula [] := fun _ ht => nomatch ht
  have hread := formula_of_negation (negation_tokens t hfilled t.tokens.length (Nat.le_refl _) []
    hnone.conjunction.comparison) hnone
  rw [List.append_nil] at hread
  simp [Formula.parse?, (t.lexes h).tokens?_eq, hread]

end Test

end GraphMapper.Aql
