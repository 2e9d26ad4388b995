import GraphMapper.Json.Basic
import GraphMapper.Number.Double

/-!
# Integers as doubles

A whole number of at most 1023 binary digits is rounded to a finite double (`Double.exists_ofRatio`), so
that every number of JSON is one, the integers of a word included (`JsonNumber.exists_toDouble`).

The significand that is rounded has 53 binary digits, whatever the number is, and rounding adds one unit
at most; with the exponent in front of it, the ordinal of the double stays below those of infinities.
-/

namespace GraphMapper

theorem roundHalfEven_le (num den : Nat) : roundHalfEven num den ≤ num / den + 1 := by
  unfold roundHalfEven
  dsimp only
  split
  · omega
  · split
    · omega
    · split <;> omega

/-- The exponent of a whole number is that of its first binary digit. -/
theorem floorLog2_one {num : Nat} (h : num ≠ 0) : floorLog2 num 1 = num.log2 := by
  have hlog : (1 : Nat).log2 = 0 := by decide
  have hle : 1 * twoTo num.log2 ≤ num * twoTo 0 := by
    change 1 * 2 ^ num.log2 ≤ num * 1
    have := Nat.log2_self_le h
    omega
  simp only [floorLog2, hlog]
  rw [if_pos (by simpa using hle)]
  simp

/-- A whole number that is rounded to 53 binary digits. -/
theorem roundToPrecision_one {num : Nat} (h : num ≠ 0) :
    ∃ m, roundToPrecision 53 (-1074) num 1 = (m, (num.log2 : Int) - 52) ∧
      m ≤ 9007199254740992 := by
  have hlt : num < 2 ^ (num.log2 + 1) := Nat.lt_log2_self
  have hscale : max (floorLog2 num 1 - ((53 - 1 : Nat) : Int)) (-1074) = (num.log2 : Int) - 52 := by
    rw [floorLog2_one h]
    omega
  have hquotient : num * 2 ^ (-((num.log2 : Int) - 52)).toNat /
      (1 * 2 ^ ((num.log2 : Int) - 52).toNat) < 2 ^ 53 := by
    rw [Nat.one_mul, Nat.div_lt_iff_lt_mul (Nat.two_pow_pos _)]
    calc num * 2 ^ (-((num.log2 : Int) - 52)).toNat
        < 2 ^ (num.log2 + 1) * 2 ^ (-((num.log2 : Int) - 52)).toNat :=
          Nat.mul_lt_mul_of_pos_right hlt (Nat.two_pow_pos _)
      _ = 2 ^ 53 * 2 ^ ((num.log2 : Int) - 52).toNat := by
          rw [← Nat.pow_add, ← Nat.pow_add]
          congr 1
          omega
  refine ⟨_, by rw [roundToPrecision, hscale], ?_⟩
  exact Nat.le_trans (roundHalfEven_le _ _) hquotient

namespace Double

/-- The ordinals below those of infinities. -/
theorem exists_ofOrdinal {n : Nat} (h : n / 4503599627370496 < 2047) (negative : Bool) :
    ∃ x, ofOrdinal negative n = .finite x := by
  rw [ofOrdinal, dif_pos h]
  exact ⟨_, rfl⟩

/-- A whole number of at most 1023 binary digits is rounded to a finite double. -/
theorem exists_ofRatio {num : Nat} (h : num.log2 < 1023) (negative : Bool) :
    ∃ x, ofRatio negative num 1 = .finite x := by
  by_cases hzero : num = 0
  · rw [ofRatio, if_pos hzero]
    exact exists_ofOrdinal (by decide) negative
  · obtain ⟨m, hround, hm⟩ := roundToPrecision_one hzero
    simp only [ofRatio, if_neg hzero, hround]
    exact exists_ofOrdinal (by omega) negative

end Double

/-- Every number of JSON is a finite double. -/
theorem JsonNumber.exists_toDouble (n : JsonNumber) : ∃ x, n.toDouble = .finite x := by
  cases n with
  | integer i fits =>
    have hword : i.natAbs < 2 ^ 64 := by
      obtain ⟨hleast, hgreatest⟩ := fits
      omega
    have hlog : i.natAbs.log2 < 1023 := by
      by_cases hzero : i.natAbs = 0
      · rw [hzero]
        decide
      · exact Nat.lt_trans ((Nat.log2_lt hzero).mpr hword) (by decide)
    exact Double.exists_ofRatio hlog _
  | double x => exact ⟨x, rfl⟩

end GraphMapper
