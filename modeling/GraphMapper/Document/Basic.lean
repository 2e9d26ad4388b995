import GraphMapper.Error.Basic

/-! # Documents

A document as an entity sees it: its key, the values of its attributes, and its neighbours by the
names of the relations. A neighbour is a handle until its document has been fetched.
-/

namespace GraphMapper

/-- A related document of type `α`, or the handle of one that was not fetched. -/
inductive Neighbour (α : Type) where
  | unread (handle : Handle)
  | fetched (document : α)

/-- The neighbours under one relation. -/
inductive Neighbours (α : Type) where
  | one (neighbour : Neighbour α)
  | many (neighbours : List (Neighbour α))

def Neighbours.toList {α : Type} : Neighbours α → List (Neighbour α)
  | one neighbour => [neighbour]
  | many neighbours => neighbours

structure Document where
  entity : String
  /-- Absent in a document that has yet to be stored. -/
  key : Option String := none
  attributes : List (String × Value) := []
  relations : List (String × Neighbours Document) := []
  deriving Inhabited

end GraphMapper
