import GraphMapper.Json.Basic
import GraphMapper.Number.Notation

/-! # Writing JSON

The compact form: no blanks, members in the order of the object, characters outside ASCII as they
are. Quotes, backslashes and control characters are escaped, the latter by their short forms where
there are any and by four hexadecimal digits otherwise. Numbers follow `jsonNotation`.
-/

namespace GraphMapper

namespace Json

def hexDigit (n : Nat) : Char := (Nat.toDigits 16 n).headD '0'

/-- A character inside quotes. -/
def escapeChar (c : Char) : List Char :=
  match c with
  | '"' => ['\\', '"']
  | '\\' => ['\\', '\\']
  | '\x08' => ['\\', 'b']
  | '\x0c' => ['\\', 'f']
  | '\n' => ['\\', 'n']
  | '\r' => ['\\', 'r']
  | '\t' => ['\\', 't']
  | c =>
    if c.toNat < 0x20 then
      ['\\', 'u', '0', '0', hexDigit (c.toNat / 16), hexDigit (c.toNat % 16)]
    else [c]

/-- A string with its quotes. -/
def quote (s : String) : String :=
  String.ofList ('"' :: s.toList.flatMap escapeChar ++ ['"'])

end Json

def JsonNumber.text : JsonNumber → String
  | .integer value _ => toString value
  | .double value => jsonNotation.double value

namespace Json

mutual
/-- The compact text of a value. -/
def text : Json → String
  | .null => "null"
  | .bool true => "true"
  | .bool false => "false"
  | .number n => n.text
  | .string s => quote s
  | .array items => "[" ++ ",".intercalate (itemTexts items) ++ "]"
  | .object members => "\x7b" ++ ",".intercalate (memberTexts members) ++ "\x7d"
def itemTexts : List Json → List String
  | [] => []
  | item :: rest => item.text :: itemTexts rest
def memberTexts : List (String × Json) → List String
  | [] => []
  | (name, value) :: rest => (quote name ++ ":" ++ value.text) :: memberTexts rest
end

end Json

end GraphMapper
