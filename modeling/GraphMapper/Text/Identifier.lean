/-! # Names that may be written into a statement

An identifier is a letter or underscore followed by letters, digits and underscores, ASCII only.
Names of entities, members, collections and parameters are identifiers, which is what allows them to
stand unquoted in a query text.

`split` cuts a text at every occurrence of a separator, as paths are cut at their dots.
-/

namespace GraphMapper.Text

def isLetter (c : Char) : Bool :=
  ('a'.toNat ≤ c.toNat && c.toNat ≤ 'z'.toNat) || ('A'.toNat ≤ c.toNat && c.toNat ≤ 'Z'.toNat)

def isDigit (c : Char) : Bool := '0'.toNat ≤ c.toNat && c.toNat ≤ '9'.toNat

def isNameStart (c : Char) : Bool := isLetter c || c == '_'

def isNameChar (c : Char) : Bool := isLetter c || isDigit c || c == '_'

/-- A letter or underscore, then letters, digits and underscores. -/
def isIdentifier (s : String) : Bool :=
  match s.toList with
  | [] => false
  | c :: rest => isNameStart c && rest.all isNameChar

/-- A collection name is an identifier that the database does not keep for itself. -/
def isCollectionName (s : String) : Bool :=
  isIdentifier s && s.toList.head? != some '_'

/-- Graph names may also hold hyphens and start with anything allowed. -/
def isGraphName (s : String) : Bool :=
  !s.toList.isEmpty && s.toList.all fun c => isNameChar c || c == '-'

/-- The lower-case form of an ASCII capital; every other character is its own. -/
def lowerAscii (c : Char) : Char :=
  if 'A'.toNat ≤ c.toNat && c.toNat ≤ 'Z'.toNat then Char.ofNat (c.toNat + 32) else c

def toLowerAscii (s : String) : String := String.ofList (s.toList.map lowerAscii)

/-! ## Splitting -/

/-- The pieces between the separators; one more than there are separators. -/
def splitChars (sep : Char) : List Char → List (List Char)
  | [] => [[]]
  | c :: rest =>
    if c = sep then [] :: splitChars sep rest
    else
      match splitChars sep rest with
      | [] => [[c]]
      | piece :: pieces => (c :: piece) :: pieces

def split (sep : Char) (s : String) : List String :=
  (splitChars sep s.toList).map String.ofList

end GraphMapper.Text
