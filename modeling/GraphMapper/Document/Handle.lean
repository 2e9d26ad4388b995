import GraphMapper.Json.Basic
import GraphMapper.Text.Order

/-! # Document handles

A handle names a stored document by its collection and key, written `collection/key`. Written
handles have exactly one slash with something on both sides; handles that a caller puts together are
not checked.
-/

namespace GraphMapper

structure Handle where
  collection : String
  key : String
  deriving DecidableEq, Repr

namespace Handle

def text (h : Handle) : String := h.collection ++ "/" ++ h.key

def toJson (h : Handle) : Json := .string h.text

/-- Reads `collection/key`. -/
def parse? (s : String) : Option Handle :=
  let cs := s.toList
  let collection := cs.takeWhile (· != '/')
  match cs.dropWhile (· != '/') with
  | [] => none
  | _ :: key =>
    if collection.isEmpty || key.isEmpty || key.contains '/' then none
    else some ⟨String.ofList collection, String.ofList key⟩

/-- Reads a JSON string that is a handle. -/
def ofJson? (j : Json) : Option Handle := j.toString?.bind parse?

end Handle

end GraphMapper
