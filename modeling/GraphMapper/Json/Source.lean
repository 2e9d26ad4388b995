import GraphMapper.Json.Numeral
import GraphMapper.Text.Digits

/-! # JSON texts

Reading has two steps. `JsonSource.parse?` follows the grammar and keeps what was written: numbers
as numerals, strings as pieces with their escapes, object members in order and with repetitions.
`JsonSource.value?` then gives the value, and refuses numbers beyond the finite doubles and escapes
that are half of a surrogate pair. A reader that skips a part of a text takes only the first step
there.
-/

namespace GraphMapper

/-- A piece of a string: a character, or a four-digit escape of one UTF-16 unit. -/
inductive StringPiece where
  | char (c : Char)
  | unit (n : Nat)
  deriving DecidableEq, Repr

/-- A JSON text by its grammar. -/
inductive JsonSource where
  | null
  | bool (value : Bool)
  | number (value : Numeral)
  | string (value : List StringPiece)
  | array (items : List JsonSource)
  | object (members : List (List StringPiece × JsonSource))

/-! ## Values -/

namespace StringPiece

/-- The characters of a string; a high surrogate must be followed by a low one. -/
def decode? : List StringPiece → Option (List Char)
  | [] => some []
  | .char c :: rest => (decode? rest).map (c :: ·)
  | .unit n :: rest =>
    if 0xD800 ≤ n ∧ n < 0xDC00 then
      match rest with
      | .unit m :: rest' =>
        if 0xDC00 ≤ m ∧ m < 0xE000 then
          let code := 0x10000 + (n - 0xD800) * 0x400 + (m - 0xDC00)
          (decode? rest').map (Char.ofNat code :: ·)
        else none
      | _ => none
    else if 0xDC00 ≤ n ∧ n < 0xE000 then none
    else (decode? rest).map (Char.ofNat n :: ·)

def text? (pieces : List StringPiece) : Option String := (decode? pieces).map String.ofList

end StringPiece

namespace JsonSource

open Text (someDigits? ofDigits)

mutual
/-- The value of a text; of two members of one name the later one counts. -/
def value? : JsonSource → Option Json
  | .null => some .null
  | .bool b => some (.bool b)
  | .number n => n.value?.map .number
  | .string s => (StringPiece.text? s).map .string
  | .array items => (values? items).map .array
  | .object members => (members? members).map Json.ofMembers
def values? : List JsonSource → Option (List Json)
  | [] => some []
  | item :: rest => do return (← item.value?) :: (← values? rest)
def members? : List (List StringPiece × JsonSource) → Option (List (String × Json))
  | [] => some []
  | (name, item) :: rest => do
    return (← StringPiece.text? name, ← item.value?) :: (← members? rest)
end

/-! ## Grammar -/

/-- The four blanks of the grammar. -/
def isBlank (c : Char) : Bool := c == ' ' || c == '\n' || c == '\t' || c == '\r'

def skipBlanks (cs : List Char) : List Char := cs.dropWhile isBlank

def hexDigit? (c : Char) : Option Nat :=
  if '0'.toNat ≤ c.toNat ∧ c.toNat ≤ '9'.toNat then some (c.toNat - '0'.toNat)
  else if 'a'.toNat ≤ c.toNat ∧ c.toNat ≤ 'f'.toNat then some (c.toNat - 'a'.toNat + 10)
  else if 'A'.toNat ≤ c.toNat ∧ c.toNat ≤ 'F'.toNat then some (c.toNat - 'A'.toNat + 10)
  else none

/-- Digits before the point: a zero stands alone. -/
def whole? (cs : List Char) : Option (List Nat × List Char) :=
  match someDigits? cs with
  | some (0 :: _ :: _, _) => none
  | found => found

def fraction? : List Char → Option (Option (List Nat) × List Char)
  | '.' :: rest => do
    let (ds, rest') ← someDigits? rest
    return (some ds, rest')
  | cs => some (none, cs)

def signedDigits? (cs : List Char) : Option (Int × List Char) :=
  match cs with
  | '-' :: rest => do
    let (ds, rest') ← someDigits? rest
    return (-(ofDigits ds : Int), rest')
  | '+' :: rest => do
    let (ds, rest') ← someDigits? rest
    return ((ofDigits ds : Int), rest')
  | cs => do
    let (ds, rest') ← someDigits? cs
    return ((ofDigits ds : Int), rest')

def exponent? : List Char → Option (Option Int × List Char)
  | c :: rest =>
    if c == 'e' || c == 'E' then do
      let (e, rest') ← signedDigits? rest
      return (some e, rest')
    else some (none, c :: rest)
  | [] => some (none, [])

def numeral? (cs : List Char) : Option (Numeral × List Char) := do
  let (negative, cs) := match cs with
    | '-' :: rest => (true, rest)
    | cs => (false, cs)
  let (whole, cs) ← whole? cs
  let (fraction, cs) ← fraction? cs
  let (exponent, cs) ← exponent? cs
  return (⟨negative, whole, fraction, exponent⟩, cs)

/-- The rest of a string after its opening quote. -/
def pieces? : List Char → Option (List StringPiece × List Char)
  | [] => none
  | '"' :: rest => some ([], rest)
  | '\\' :: c :: rest =>
    if c == 'u' then
      match rest with
      | a :: b :: c :: d :: rest => do
        let n := (((← hexDigit? a) * 16 + (← hexDigit? b)) * 16 + (← hexDigit? c)) * 16
          + (← hexDigit? d)
        let (ps, rest') ← pieces? rest
        return (.unit n :: ps, rest')
      | _ => none
    else do
      let escaped ← match c with
        | '"' => some '"'
        | '\\' => some '\\'
        | '/' => some '/'
        | 'b' => some '\x08'
        | 'f' => some '\x0c'
        | 'n' => some '\n'
        | 'r' => some '\r'
        | 't' => some '\t'
        | _ => none
      let (ps, rest') ← pieces? rest
      return (.char escaped :: ps, rest')
  | c :: rest =>
    if c.toNat < 0x20 || c == '\\' then none
    else do
      let (ps, rest') ← pieces? rest
      return (.char c :: ps, rest')

/-- The text after a fixed word. -/
def word? (w : List Char) (cs : List Char) : Option (List Char) :=
  if w.isPrefixOf cs then some (cs.drop w.length) else none

mutual
/-- One value after optional blanks. Every call reads at least one character more than its caller,
so the length of the text is fuel enough. -/
def value (fuel : Nat) (cs : List Char) : Option (JsonSource × List Char) :=
  match fuel with
  | 0 => none
  | fuel + 1 =>
    match skipBlanks cs with
    | [] => none
    | '"' :: rest => do
      let (ps, rest') ← pieces? rest
      return (.string ps, rest')
    | '[' :: rest =>
      match skipBlanks rest with
      | ']' :: rest' => some (.array [], rest')
      | rest => do
        let (items, rest') ← items fuel rest
        return (.array items, rest')
    | '{' :: rest =>
      match skipBlanks rest with
      | '}' :: rest' => some (.object [], rest')
      | rest => do
        let (ms, rest') ← members fuel rest
        return (.object ms, rest')
    | 'n' :: rest => (word? "ull".toList rest).map (JsonSource.null, ·)
    | 't' :: rest => (word? "rue".toList rest).map (JsonSource.bool true, ·)
    | 'f' :: rest => (word? "alse".toList rest).map (JsonSource.bool false, ·)
    | cs => do
      let (n, rest) ← numeral? cs
      return (.number n, rest)
/-- Items up to the closing bracket. -/
def items (fuel : Nat) (cs : List Char) : Option (List JsonSource × List Char) :=
  match fuel with
  | 0 => none
  | fuel + 1 => do
    let (item, rest) ← value fuel cs
    match skipBlanks rest with
    | ',' :: rest => do
      let (more, rest') ← items fuel rest
      return (item :: more, rest')
    | ']' :: rest => return ([item], rest)
    | _ => none
/-- Members up to the closing brace. -/
def members (fuel : Nat) (cs : List Char) :
    Option (List (List StringPiece × JsonSource) × List Char) :=
  match fuel with
  | 0 => none
  | fuel + 1 =>
    match skipBlanks cs with
    | '"' :: rest => do
      let (name, rest) ← pieces? rest
      match skipBlanks rest with
      | ':' :: rest => do
        let (item, rest) ← value fuel rest
        match skipBlanks rest with
        | ',' :: rest => do
          let (more, rest') ← members fuel rest
          return ((name, item) :: more, rest')
        | '}' :: rest => return ([(name, item)], rest)
        | _ => none
      | _ => none
    | _ => none
end

/-- The grammar tree of a whole text. -/
def parse? (text : String) : Option JsonSource := do
  let cs := text.toList
  let (source, rest) ← value (cs.length + 1) cs
  if (skipBlanks rest).isEmpty then some source else none

end JsonSource

/-- The value of a JSON text. -/
def Json.parse? (text : String) : Option Json := do (← JsonSource.parse? text).value?

end GraphMapper
