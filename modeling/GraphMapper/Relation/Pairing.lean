import GraphMapper.Relation.Declaration

/-! # Pairing declarations

Two declarations that name the same graph and lead in opposite directions belong together. `pairUp`
takes the declarations in order and gives each one that is still free the first free partner after
it.
-/

namespace GraphMapper

/-- The first member that passes the test, and the list without it. -/
def extractFirst {α : Type} (test : α → Bool) : List α → Option (α × List α)
  | [] => none
  | a :: rest =>
    if test a then some (a, rest)
    else (extractFirst test rest).map fun (found, others) => (found, a :: others)

theorem extractFirst_length {α : Type} {test : α → Bool} {as others : List α} {found : α}
    (h : extractFirst test as = some (found, others)) : others.length < as.length := by
  induction as generalizing others with
  | nil => simp [extractFirst] at h
  | cons a rest ih =>
    unfold extractFirst at h
    split at h
    · obtain ⟨rfl, rfl⟩ := by simpa using h
      simp
    · cases hr : extractFirst test rest with
      | none => simp [hr] at h
      | some p =>
        obtain ⟨f, os⟩ := p
        simp only [hr, Option.map_some, Option.some.injEq, Prod.mk.injEq] at h
        obtain ⟨rfl, rfl⟩ := h
        simpa using ih hr

/-- Each declaration that no earlier one has taken, with the partner that it takes. -/
def pairUp : List Declaration → List (Declaration × Option Declaration)
  | [] => []
  | d :: rest =>
    match _h : extractFirst d.pairsWith rest with
    | some (partner, others) => (d, some partner) :: pairUp others
    | none => (d, none) :: pairUp rest
termination_by ds => ds.length
decreasing_by
  · have := extractFirst_length _h
    simp only [List.length_cons]
    omega
  · simp

end GraphMapper
