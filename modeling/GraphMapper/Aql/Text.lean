import GraphMapper.Aql.Lexeme
import GraphMapper.Aql.Syntax

/-! # The text of a statement

Every form of `Aql.Syntax` as lexemes. Groups of conditions stand in parentheses with their operator
between the members, a negation has its argument in parentheses, and comparisons have none. Every
clause is a line; the steps of a first match are indented.
-/

namespace GraphMapper.Aql

/-! ## Expressions -/

def Var.lexemes : Var → List Lexeme
  | doc => [.head .doc]
  | hit => [.head .hit]
  | edge => [.head .edge]
  | step n => [.head .step, .number n]
  | included n => [.head .included, .number n]
  | neighbour n => [.head .neighbour, .number n]
  | group n => [.head .group, .number n]
  | total n => [.head .total, .number n]

def Slot.lexemes : Slot → List Lexeme
  | literal n => [.mark .atSign, .head .literal, .number n]
  | named name => [.mark .atSign, .name name]

def columnLexemes (n : Nat) : List Lexeme := [.head .column, .number n]

def Expr.lexemes : Expr → List Lexeme
  | field v segments => v.lexemes ++ segments.flatMap fun s => [.mark .dot, attributeName s]
  | column n => Var.hit.lexemes ++ .mark .dot :: columnLexemes n

/-! ## Conditions -/

def Relation.mark : Relation → Mark
  | equal => .equal
  | notEqual => .notEqual
  | less => .less
  | lessEqual => .lessEqual
  | greater => .greater
  | greaterEqual => .greaterEqual

/-- Members in parentheses with an operator between them. -/
def grouped (operator : Word) (members : List (List Lexeme)) : List Lexeme :=
  parenthesised ([Lexeme.mark .blank, .word operator, .mark .blank].intercalate members)

namespace Test

mutual
def lexemes : Test → List Lexeme
  | relation left op right => spaced [left.lexemes, [.mark op.mark], right.lexemes]
  | memberOf field values => spaced [field.lexemes, [.word .inWord], values.lexemes]
  | hasMember field value => spaced [value.lexemes, [.word .inWord], field.lexemes]
  | contains field part => call .contains [field.lexemes, part.lexemes]
  | startsWith field start => call .startsWith [field.lexemes, start.lexemes]
  | isNull field negated =>
    spaced [field.lexemes, [.mark (if negated then .notEqual else .equal)], [.word .null]]
  | all members => grouped .andWord (memberLexemes members)
  | any members => grouped .orWord (memberLexemes members)
  | not member => spaced [[.word .notWord], parenthesised member.lexemes]
def memberLexemes : List Test → List (List Lexeme)
  | [] => []
  | t :: rest => t.lexemes :: memberLexemes rest
end

end Test

/-! ## Clauses -/

def directionWord : Direction → Word
  | .outbound => .outbound
  | .inbound => .inbound

/-- The collections of a traversal; those after the first one show their direction. -/
def Edges.collections (e : Edges) : List Lexeme :=
  listed ([.name e.collection] ::
    e.others.map fun o => spaced [[.word (directionWord o.1)], [.name o.2]])

/-- From a start along edges, at a distance of one to `depth`. -/
def Edges.path (e : Edges) (depth : Nat) (start : Var) : List Lexeme :=
  spaced [[.number 1, .mark .range, .number depth], [.word (directionWord e.direction)],
    start.lexemes, e.collections]

/-- A loop over the values of a piece. -/
def loop (v : Var) (values : List Lexeme) : List Lexeme :=
  spaced [[.word .forWord], v.lexemes, [.word .inWord], values]

/-- `key: value` pairs of an object. -/
def entry (key value : List Lexeme) : List Lexeme := spaced [key ++ [.mark .colon], value]

def Step.line : Step → List Lexeme
  | filter test => spaced [[.word .filter], test.lexemes]
  | traverse index depth start edges =>
    let reached := loop (.step index) (edges.path depth start)
    if edges.others.isEmpty && depth ≤ 1 then reached
    else spaced [reached, [.word .options], [.word .breadthFirst]]

def Function.word : Function → Word
  | count => .count
  | sum => .sum
  | average => .average
  | min => .min
  | max => .max

def sortWord : SortDirection → Word
  | .ascending => .asc
  | .descending => .desc

/-- What a first match returns: its columns, or just that it exists. -/
def columnsRow (columns : List Expr) : List Lexeme :=
  if columns.isEmpty then [.word .trueWord]
  else braced (columns.mapIdx fun i e => entry (columnLexemes i) e.lexemes)

/-- The assignment of a variable. -/
def assignment (v : Var) (value : List Lexeme) : List Lexeme :=
  spaced [v.lexemes, [.mark .assign], value]

def Clause.lines : Clause → List (List Lexeme)
  | step s => [s.line]
  | firstMatch steps columns =>
    let inner := steps.map Step.line ++
      [spaced [[.word .limit], [.number 1]], spaced [[.word .returnWord], columnsRow columns]]
    [spaced [[.word .letWord], assignment .hit [.word .first, .mark .openParen]]] ++
      inner.map (Lexeme.mark .indent :: ·) ++
      [[.mark .closeParen], spaced [[.word .filter], Var.hit.lexemes, [.mark .notEqual],
        [.word .null]]]
  | neighbours index cardinality edges =>
    let found := spaced [loop (.neighbour index) (edges.path 1 .doc), [.word .returnWord],
      [.word .distinct], (Var.neighbour index).lexemes ++ [.mark .dot, .word .idMember]]
    let value := match cardinality with
      | .one => call .first [found]
      | .many => parenthesised found
    [spaced [[.word .letWord], assignment (.included index) value]]
  | collect groups totals =>
    let keys := groups.mapIdx fun i e => assignment (.group i) e.lexemes
    let values := totals.mapIdx fun i t => assignment (.total i) (call t.1.word [t.2.lexemes])
    let aggregated := [[.word .aggregate], listed values]
    [spaced ([.word .collect] :: (if keys.isEmpty then aggregated else listed keys :: aggregated))]
  | sort keys =>
    let sorted := keys.map fun k => spaced [k.1.lexemes, [.word (sortWord k.2)]]
    [spaced [[.word .sort], listed sorted]]
  | limit offset count => [spaced [[.word .limit], listed [[.number offset], [.number count]]]]

def objectLexemes (entries : List (String × Expr)) : List Lexeme :=
  braced (entries.map fun e => entry [.key e.1] e.2.lexemes)

def Result.line (r : Result) : List Lexeme :=
  let value := match r with
    | document => Var.doc.lexemes
    | merged entries => call .merge [Var.doc.lexemes, objectLexemes entries]
    | object entries => objectLexemes entries
  spaced [[.word .returnWord], value]

/-! ## Statements -/

def EdgeEnd.word : EdgeEnd → Word
  | source => .fromMember
  | target => .toMember

/-- The statement gives back the stored record. -/
def returnNew : List Lexeme := spaced [[.word .returnWord], [.word .new]]

/-- `word collection`. -/
def within (w : Word) (collection : String) : List Lexeme := spaced [[.word w], [.name collection]]

def Command.lexemes : Command → List Lexeme
  | read collection clauses result =>
    [Lexeme.mark .lineBreak].intercalate
      (loop .doc [.name collection] :: clauses.flatMap Clause.lines ++ [result.line])
  | readDocument handle =>
    spaced [[.word .returnWord], call .document [handle.lexemes]]
  | insertDocument document collection =>
    spaced [[.word .insert], document.lexemes, within .into collection, returnNew]
  | updateDocument key patch collection =>
    spaced [[.word .update], key.lexemes, [.word .withWord], patch.lexemes,
      within .inWord collection, returnNew]
  | removeDocument key collection =>
    spaced [[.word .remove], key.lexemes, within .inWord collection]
  | insertEdge source target collection =>
    spaced [[.word .insert],
      braced [entry [.word .fromMember] source.lexemes, entry [.word .toMember] target.lexemes],
      within .into collection, returnNew]
  | removeEdges collection ends =>
    let tests := ends.map fun e =>
      spaced [Var.edge.lexemes ++ [.mark .dot, .word e.1.word], [.mark .equal], e.2.lexemes]
    spaced [loop .edge [.name collection], [.word .filter],
      [Lexeme.mark .blank, .word .andWord, .mark .blank].intercalate tests,
      [.word .remove], Var.edge.lexemes, within .inWord collection]

/-- The text that is sent. -/
def Command.text (c : Command) : String := textOf c.lexemes

end GraphMapper.Aql
