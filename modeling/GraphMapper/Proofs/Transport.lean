import GraphMapper.Proofs.Outcome
import GraphMapper.Transport

/-!
# What a transport is handed

Statements in order are handed over up to the first failure, and a run that fails has handed over the
statement that failed (`Transport.executeAll_eq_error`).
-/

namespace GraphMapper.Transport

/-- A run that fails has handed over a statement that failed, after the statements before it. -/
theorem executeAll_eq_error {t : Transport} {executed statements all : List Statement}
    {error : Error} (h : t.executeAll executed statements = (.error error, all)) :
    ∃ done failed rest, statements = done ++ failed :: rest ∧
      all = executed ++ done ++ [failed] := by
  induction statements generalizing executed with
  | nil => cases h
  | cons st rest ih =>
    rw [executeAll, execute] at h
    cases hanswer : t.answer executed st with
    | error other =>
      rw [hanswer] at h
      obtain rfl : executed ++ [st] = all := (Prod.mk.inj h).2
      exact ⟨[], st, rest, rfl, by simp⟩
    | ok rows =>
      rw [hanswer] at h
      cases hothers : t.executeAll (executed ++ [st]) rest with
      | mk result all' =>
        cases result with
        | ok more =>
          simp only [hothers] at h
          cases h
        | error other =>
          simp only [hothers] at h
          obtain ⟨heq, rfl⟩ := Prod.mk.inj h
          obtain rfl := Except.error.inj heq
          obtain ⟨done, failed, left, rfl, rfl⟩ := ih hothers
          exact ⟨st :: done, failed, left, rfl, by simp⟩

end GraphMapper.Transport
