import GraphMapper.Error.Basic
import GraphMapper.Json.Record
import GraphMapper.Json.Source
import GraphMapper.Text.Digits

/-! # Settings

Two settings of a mapper. They come from a JSON text or from variables of the environment, with
defaults for what is missing; both refuse a depth of zero. `Settings.ofJson?` only decodes.

In a JSON text the values of unknown members are skipped by the grammar alone, and a setting that is
given twice is refused.
-/

namespace GraphMapper

/-! ## Blanks -/

/-- A character with the Unicode property White_Space. ASCII has six of them: tab, line feed, line
tabulation, form feed, carriage return and space. -/
def Text.isBlank (c : Char) : Bool :=
  let n := c.toNat
  (0x9 ≤ n && n ≤ 0xD) || n == 0x20 || n == 0x85 || n == 0xA0 || n == 0x1680 ||
    (0x2000 ≤ n && n ≤ 0x200A) || n == 0x2028 || n == 0x2029 || n == 0x202F || n == 0x205F ||
    n == 0x3000

/-- The text without the blanks at both ends. -/
def Text.trim (s : String) : String :=
  String.ofList (((s.toList.dropWhile isBlank).reverse.dropWhile isBlank).reverse)

/-! ## Settings -/

structure Settings where
  /-- The greatest depth that a traversal may ask for. -/
  maxTraversalDepth : UInt32 := 8
  /-- Whether a query that crosses relationships returns each root document once. -/
  distinctTraversals : Bool := true
  deriving DecidableEq, Repr

namespace Settings

/-! ## Decoding -/

def reader : RecordReader Settings := do
  let depth ← RecordReader.fieldOr "max_traversal_depth" 8 Json.toUInt32?
  let distinct ← RecordReader.fieldOr "distinct_traversals" true Json.toBool?
  return ⟨depth, distinct⟩

def ofJson? (j : Json) : Option Settings := reader.read? j

/-- Whether a member is a setting. -/
def isSetting (name : String) : Bool :=
  name == "max_traversal_depth" || name == "distinct_traversals"

/-- The settings among the members of a text; the others are only checked for their names. -/
def known? : List (List StringPiece × JsonSource) → Option (List (String × Json))
  | [] => some []
  | (pieces, source) :: rest => do
    let name ← StringPiece.text? pieces
    let found ← known? rest
    if isSetting name then
      if found.any (·.1 == name) then none else return (name, ← source.value?) :: found
    else return found

/-- The settings that the grammar tree of a text spells. -/
def ofSource? : JsonSource → Option Settings
  | .object members => do ofJson? (.object (← known? members))
  | source => do ofJson? (← source.value?)

/-- A depth of zero would allow no traversal at all. -/
def validate (s : Settings) : Except Error Settings :=
  if s.maxTraversalDepth = 0 then .error (.unreadableText .zeroDepth) else .ok s

/-- Reads and checks a JSON text. -/
def ofText (text : String) : Except Error Settings :=
  match (JsonSource.parse? text).bind ofSource? with
  | some s => s.validate
  | none => .error (.unreadableText .settingsText)

/-! ## Environment -/

/-- A number of at most 32 bits: digits, which a plus sign may precede. -/
def depthSetting? (s : String) : Option UInt32 :=
  let cs := match s.toList with
    | '+' :: rest => rest
    | cs => cs
  match Text.someDigits? cs with
  | some (ds, []) =>
    if Text.ofDigits ds < 4294967296 then some (UInt32.ofNat (Text.ofDigits ds)) else none
  | _ => none

/-- The words for on and off, in any case. -/
def flagSetting? (s : String) : Option Bool :=
  let word := Text.toLowerAscii s
  if ["1", "true", "yes", "on"].contains word then some true
  else if ["0", "false", "no", "off"].contains word then some false
  else none

/-- A setting that is present is read without the blanks around it; one that is absent has its
default. -/
def setting {α : Type} (read : String → Option α) (fault : String → TextFault) (default : α) :
    Option String → Except Error α
  | none => .ok default
  | some text =>
    match read (Text.trim text) with
    | some a => .ok a
    | none => .error (.unreadableText (fault text))

/-- The settings of the environment. -/
def ofEnvironment (depth distinct : Option String) : Except Error Settings := do
  let maxTraversalDepth ← setting depthSetting? .depthSetting 8 depth
  let distinctTraversals ← setting flagSetting? .distinctSetting true distinct
  validate { maxTraversalDepth, distinctTraversals }

end Settings

end GraphMapper
