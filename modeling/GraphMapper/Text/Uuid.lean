/-! # UUIDs

A UUID is thirty-two hexadecimal digits. It is read with hyphens after the 8th, 12th, 16th and 20th
digit, then also in braces or behind `urn:uuid:`, or without any hyphen; it is written with hyphens
and small letters.
-/

namespace GraphMapper.Uuid

/-- A hexadecimal digit, as a small letter where it is one. -/
def hexDigit? (c : Char) : Option Char :=
  if ('0'.toNat ≤ c.toNat ∧ c.toNat ≤ '9'.toNat) ∨ ('a'.toNat ≤ c.toNat ∧ c.toNat ≤ 'f'.toNat) then
    some c
  else if 'A'.toNat ≤ c.toNat ∧ c.toNat ≤ 'F'.toNat then some (Char.ofNat (c.toNat + 32))
  else none

/-- The text inside braces or behind the URN label. -/
def unwrap? (cs : List Char) : Option (List Char) :=
  let label := "urn:uuid:".toList
  match cs with
  | '\x7b' :: rest => if rest.getLast? = some '\x7d' then some rest.dropLast else none
  | cs => if label.isPrefixOf cs then some (cs.drop label.length) else none

/-- Groups of 8, 4, 4, 4 and 12. -/
def groups (cs : List Char) : List (List Char) :=
  [cs.take 8, (cs.drop 8).take 4, (cs.drop 12).take 4, (cs.drop 16).take 4, cs.drop 20]

/-- The canonical text of a UUID. -/
def canonical? (s : String) : Option String := do
  let cs := (unwrap? s.toList).getD s.toList
  let plain := cs.filter (· != '-')
  let ds ← plain.mapM hexDigit?
  let hyphenated := cs == ['-'].intercalate (groups plain)
  if plain.length = 32 && (hyphenated || s.toList == plain) then
    some (String.ofList (['-'].intercalate (groups ds)))
  else none

end GraphMapper.Uuid
