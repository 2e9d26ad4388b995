import GraphMapper.Text.CaseTables
import GraphMapper.Text.Identifier

/-! # Small letters

The small form of a text, by the full case mapping: a capital I with a dot above becomes two
characters, and a capital sigma that ends a word becomes a final sigma. On ASCII texts this is the
small form of each letter on its own.
-/

namespace GraphMapper.Text

def inRanges (ranges : List CodeRange) (c : Char) : Bool :=
  ranges.any fun r => r.1 ≤ c.toNat && c.toNat ≤ r.2

/-- The small form of a character that has one of a single character. -/
def lowerLetter (c : Char) : Char :=
  if c.toNat < 0x80 then lowerAscii c
  else
    match lowercaseRuns.find? fun r =>
      r.first ≤ c.toNat && c.toNat ≤ r.last && (c.toNat - r.first) % r.step == 0 with
    | some r => Char.ofNat (c.toNat + r.distance).toNat
    | none => c

/-- The first character that case does not ignore is a cased one. -/
def startsCased (cs : List Char) : Bool :=
  match cs.dropWhile (inRanges caseIgnorableRanges) with
  | [] => false
  | c :: _ => inRanges casedRanges c

/-- The small forms of a text, given what stands before it in reverse. -/
def lowerAfter (before : List Char) : List Char → List Char
  | [] => []
  | c :: rest =>
    let small :=
      if c.toNat = 0x130 then ['i', Char.ofNat 0x307]
      else if c.toNat = 0x3A3 then
        if startsCased before && !startsCased rest then [Char.ofNat 0x3C2] else [Char.ofNat 0x3C3]
      else [lowerLetter c]
    small ++ lowerAfter (c :: before) rest

/-- The small form of a text. -/
def lowercase (s : String) : String := String.ofList (lowerAfter [] s.toList)

end GraphMapper.Text
