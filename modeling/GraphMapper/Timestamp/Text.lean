import GraphMapper.Timestamp.Basic
import GraphMapper.Text.Digits

/-! # Timestamps as text

The written form is `YYYY-MM-DDTHH:MM:SSZ`, with three, six or nine digits after the seconds when
fewer do not say the fraction exactly. Years from 0 to 9999 have four digits; any other year has a
sign and at least four digits. A leap second is written `:60` where it ends a minute, and elsewhere as
the second after the one that carries it.

The form that is read has exactly four digits for the year, `T`, `t` or a blank before the time, any
number of fraction digits (those past the ninth say nothing), and `Z`, `z` or an offset from UTC of
at most 23 hours and 59 minutes, whose minus sign may also be the mathematical one.
-/

namespace GraphMapper.Timestamp

open Text (padded digits fixedNumber? ofDigits)

/-! ## Writing -/

def yearText (year : Int) : String :=
  if 0 ≤ year ∧ year ≤ 9999 then padded 4 year.toNat
  else if year < 0 then "-" ++ padded 4 year.natAbs
  else "+" ++ padded 4 year.natAbs

/-- The shortest exact fraction of nothing, three, six or nine digits. -/
def fractionText (nanosecond : Nat) : String :=
  if nanosecond = 0 then ""
  else if nanosecond % 1000000 = 0 then "." ++ padded 3 (nanosecond / 1000000)
  else if nanosecond % 1000 = 0 then "." ++ padded 6 (nanosecond / 1000)
  else "." ++ padded 9 nanosecond

def text (t : Timestamp) : String :=
  let date := CivilDate.ofDay t.day
  let second := t.second % 60 + t.nanosecond / 1000000000
  yearText date.year ++ "-" ++ padded 2 date.month ++ "-" ++ padded 2 date.day ++ "T" ++
    padded 2 (t.second / 3600) ++ ":" ++ padded 2 (t.second / 60 % 60) ++ ":" ++ padded 2 second ++
    fractionText (t.nanosecond % 1000000000) ++ "Z"

/-! ## Reading -/

/-- One of the characters. -/
def oneOf? (allowed : List Char) : List Char → Option (List Char)
  | [] => none
  | c :: cs => if allowed.contains c then some cs else none

/-- Nanoseconds: nothing, or a point and at least one digit. -/
def fraction? : List Char → Option (Nat × List Char)
  | '.' :: rest =>
    match digits rest with
    | ([], _) => none
    | (ds, rest') => some (ofDigits ((ds ++ List.replicate 9 0).take 9), rest')
  | cs => some (0, cs)

/-- The offset from UTC in minutes. -/
def offset? : List Char → Option (Int × List Char)
  | [] => none
  | sign :: rest =>
    if sign == 'Z' || sign == 'z' then some (0, rest)
    else if sign == '+' || sign == '-' || sign == '−' then do
      let (hours, rest) ← fixedNumber? 2 rest
      let rest ← oneOf? [':'] rest
      let (minutes, rest) ← fixedNumber? 2 rest
      if hours ≤ 23 ∧ minutes ≤ 59 then
        let total : Int := hours * 60 + minutes
        some (if sign == '+' then total else -total, rest)
      else none
    else none

/-- Reads a whole text. -/
def parse? (s : String) : Option Timestamp := do
  let (year, cs) ← fixedNumber? 4 s.toList
  let cs ← oneOf? ['-'] cs
  let (month, cs) ← fixedNumber? 2 cs
  let cs ← oneOf? ['-'] cs
  let (day, cs) ← fixedNumber? 2 cs
  let cs ← oneOf? ['T', 't', ' '] cs
  let (hour, cs) ← fixedNumber? 2 cs
  let cs ← oneOf? [':'] cs
  let (minute, cs) ← fixedNumber? 2 cs
  let cs ← oneOf? [':'] cs
  let (second, cs) ← fixedNumber? 2 cs
  let (nanosecond, cs) ← fraction? cs
  let (offset, cs) ← offset? cs
  let date : CivilDate := ⟨year, month, day⟩
  if cs.isEmpty && date.isValid && hour ≤ 23 && minute ≤ 59 && second ≤ 60 then
    let ofDay := hour * 3600 + minute * 60 + min second 59
    ofSeconds? (date.toDay * 86400 + ofDay - offset * 60)
      (nanosecond + if second = 60 then 1000000000 else 0)
  else none

end GraphMapper.Timestamp
