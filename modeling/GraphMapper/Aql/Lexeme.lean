import GraphMapper.Json.Printer
import GraphMapper.Text.Identifier

/-! # The pieces of a statement text

The text of a statement is the concatenation of its lexemes, blanks and line breaks included. Words,
variable heads and marks are closed types: nothing that a caller wrote can be one of them. What
comes from elsewhere is a number, a bare or backticked name, or a quoted key.
-/

namespace GraphMapper.Aql

/-- Words of the language, its functions and constants, and the reserved members of documents. -/
inductive Word where
  | forWord | inWord | filter | letWord | first | limit | returnWord | distinct | sort | asc | desc
  | collect | aggregate | merge | insert | into | new | update | withWord | remove | document
  | outbound | inbound | options | andWord | orWord | notWord | contains | startsWith
  | count | sum | average | min | max | null | trueWord | idMember | fromMember | toMember
  /-- The options of a traversal that reaches every document once, nearest first. -/
  | breadthFirst
  deriving DecidableEq, Repr

def Word.text : Word → String
  | forWord => "FOR"
  | inWord => "IN"
  | filter => "FILTER"
  | letWord => "LET"
  | first => "FIRST"
  | limit => "LIMIT"
  | returnWord => "RETURN"
  | distinct => "DISTINCT"
  | sort => "SORT"
  | asc => "ASC"
  | desc => "DESC"
  | collect => "COLLECT"
  | aggregate => "AGGREGATE"
  | merge => "MERGE"
  | insert => "INSERT"
  | into => "INTO"
  | new => "NEW"
  | update => "UPDATE"
  | withWord => "WITH"
  | remove => "REMOVE"
  | document => "DOCUMENT"
  | outbound => "OUTBOUND"
  | inbound => "INBOUND"
  | options => "OPTIONS"
  | andWord => "AND"
  | orWord => "OR"
  | notWord => "NOT"
  | contains => "CONTAINS"
  | startsWith => "STARTS_WITH"
  | count => "COUNT"
  | sum => "SUM"
  | average => "AVERAGE"
  | min => "MIN"
  | max => "MAX"
  | null => "null"
  | trueWord => "true"
  | idMember => "_id"
  | fromMember => "_from"
  | toMember => "_to"
  | breadthFirst => "\x7b order: \"bfs\", uniqueVertices: \"global\" \x7d"

/-- Variables, and the letters that numbered variables, columns and literals begin with. -/
inductive Head where
  | doc | hit | edge | step | included | neighbour | group | total | column | literal
  deriving DecidableEq, Repr

def Head.text : Head → String
  | doc => "doc"
  | hit => "hit"
  | edge => "e"
  | step => "t"
  | included => "i"
  | neighbour => "ri"
  | group => "g"
  | total => "a"
  | column => "v"
  | literal => "lit"

inductive Mark where
  | blank | lineBreak | indent | openParen | closeParen | openBrace | closeBrace | comma | colon
  | dot | range | assign | equal | notEqual | less | lessEqual | greater | greaterEqual | atSign
  deriving DecidableEq, Repr

def Mark.text : Mark → String
  | blank => " "
  | lineBreak => "\n"
  | indent => "  "
  | openParen => "("
  | closeParen => ")"
  | openBrace => "\x7b"
  | closeBrace => "\x7d"
  | comma => ","
  | colon => ":"
  | dot => "."
  | range => ".."
  | assign => "="
  | equal => "=="
  | notEqual => "!="
  | less => "<"
  | lessEqual => "<="
  | greater => ">"
  | greaterEqual => ">="
  | atSign => "@"

inductive Lexeme where
  | word (w : Word)
  | head (h : Head)
  | mark (m : Mark)
  | number (n : Nat)
  /-- A collection, an attribute or a parameter as it is. -/
  | name (s : String)
  /-- A name between backticks. -/
  | ticked (s : String)
  /-- A key of an object, in double quotes. -/
  | key (s : String)
  deriving DecidableEq, Repr

def Lexeme.text : Lexeme → String
  | word w => w.text
  | head h => h.text
  | mark m => m.text
  | number n => toString n
  | name s => s
  | ticked s => "`" ++ s ++ "`"
  | key s => Json.quote s

/-- The text that lexemes make up. -/
def textOf (ls : List Lexeme) : String := String.join (ls.map Lexeme.text)

/-! ## Putting pieces together -/

/-- Pieces with one blank between them. -/
def spaced (pieces : List (List Lexeme)) : List Lexeme := [Lexeme.mark .blank].intercalate pieces

/-- Pieces with a comma and a blank between them. -/
def listed (pieces : List (List Lexeme)) : List Lexeme :=
  [Lexeme.mark .comma, .mark .blank].intercalate pieces

def parenthesised (piece : List Lexeme) : List Lexeme :=
  .mark .openParen :: piece ++ [.mark .closeParen]

/-- Pieces in braces. -/
def braced (pieces : List (List Lexeme)) : List Lexeme :=
  spaced [[.mark .openBrace], listed pieces, [.mark .closeBrace]]

/-- A function applied to its arguments. -/
def call (function : Word) (arguments : List (List Lexeme)) : List Lexeme :=
  .word function :: parenthesised (listed arguments)

/-! ## Names -/

/-- Words that an attribute may not show bare, in any case. -/
def reservedWords : List String := [
  "aggregate", "all", "and", "any", "asc", "collect", "desc", "distinct", "false", "filter", "for",
  "graph", "in", "inbound", "insert", "into", "k_paths", "k_shortest_paths", "let", "like", "limit",
  "none", "not", "null", "or", "outbound", "remove", "replace", "return", "shortest_path", "sort",
  "true", "update", "upsert", "window", "with"
]

/-- An attribute name, in backticks where it is a reserved word. -/
def attributeName (s : String) : Lexeme :=
  if reservedWords.contains (Text.toLowerAscii s) then .ticked s else .name s

end GraphMapper.Aql
