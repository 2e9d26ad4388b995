import GraphMapper.Text.Order

/-! # Sorted tables

A `Dict` is a list of entries in increasing key order with one entry per key. `insert` keeps that
order and replaces the value of a key that is already there; `find?` reads the first entry of a key,
so it is also meaningful on lists that nobody sorted.

Sorted sets of strings are lists filled through `insertSorted`.

`find?_insert` says what an insertion does to every look-up, and `mem_insertSorted` what it does to
the members of a sorted set; neither needs the order of the entries.
-/

namespace GraphMapper

/-- Entries in key order. -/
abbrev Dict (κ α : Type) := List (κ × α)

namespace Dict

variable {κ α β : Type} [DecidableEq κ] [Precedence κ]

def find? : Dict κ α → κ → Option α
  | [], _ => none
  | (k, v) :: rest, key => if k = key then some v else find? rest key

def contains (d : Dict κ α) (key : κ) : Bool := (find? d key).isSome

/-- Puts the entry in its place; an entry of the same key is replaced. -/
def insert : Dict κ α → κ → α → Dict κ α
  | [], key, value => [(key, value)]
  | (k, v) :: rest, key, value =>
    if k = key then (key, value) :: rest
    else if Precedence.precedes key k then (key, value) :: (k, v) :: rest
    else (k, v) :: insert rest key value

def keys (d : Dict κ α) : List κ := d.map Prod.fst

def values (d : Dict κ α) : List α := d.map Prod.snd

/-- The table of a list of entries; of two entries of one key the later one counts. -/
def ofEntries (entries : List (κ × α)) : Dict κ α :=
  entries.foldl (fun d e => insert d e.1 e.2) []

/-- An insertion changes the value of its own key and of no other one. -/
@[simp] theorem find?_insert (d : Dict κ α) (key other : κ) (value : α) :
    find? (insert d key value) other = if key = other then some value else find? d other := by
  induction d with
  | nil => simp [insert, find?]
  | cons e rest ih =>
    obtain ⟨k, v⟩ := e
    unfold insert
    split
    · next h =>
      subst h
      by_cases hk : k = other <;> simp [find?, hk]
    · next h =>
      split
      · simp [find?]
      · by_cases hk : k = other
        · subst hk
          simp [find?, Ne.symm h]
        · simp [find?, hk, ih]

end Dict

/-- Adds `s` to a sorted list without repetitions. -/
def insertSorted (s : String) : List String → List String
  | [] => [s]
  | t :: rest =>
    if t = s then t :: rest
    else if Text.precedes s t then s :: t :: rest
    else t :: insertSorted s rest

/-- The distinct members of a list, in order. -/
def sortDistinct (names : List String) : List String := names.foldr insertSorted []

@[simp] theorem mem_insertSorted {s t : String} {names : List String} :
    t ∈ insertSorted s names ↔ t = s ∨ t ∈ names := by
  fun_induction insertSorted s names <;> grind

@[simp] theorem mem_sortDistinct {t : String} {names : List String} :
    t ∈ sortDistinct names ↔ t ∈ names := by
  induction names with
  | nil => simp [sortDistinct]
  | cons n rest ih =>
    have h : sortDistinct (n :: rest) = insertSorted n (sortDistinct rest) := rfl
    simp [h, ih]

end GraphMapper
