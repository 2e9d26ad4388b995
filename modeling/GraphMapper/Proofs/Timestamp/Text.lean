import GraphMapper.Proofs.Text.Digits
import GraphMapper.Proofs.Timestamp.Calendar
import GraphMapper.Timestamp.Text

/-!
# Reading timestamps back

A moment whose leap second does not end a minute has the text of another one (`Timestamp.written`), and
only moments that are like their texts are ever read (`isRegular_of_parse?`). What is written of a
timestamp is read back as the moment of its text if its year has four digits, and is not read at all if
the year has a sign (`parse?_text`).
-/

namespace GraphMapper.Timestamp

open Text

/-- The year of the date. -/
def year (t : Timestamp) : Int := (CivilDate.ofDay t.day).year

/-! ## Fractions -/

theorem fraction?_padded {width n : Nat} (hwidth : 0 < width) (hle : width ≤ 9)
    (h : n < 10 ^ width) :
    fraction? ('.' :: ((padded width n).toList ++ ['Z'])) = some (n * 10 ^ (9 - width), ['Z']) := by
  have hdigits : digits ((padded width n).toList ++ ['Z']) =
      ((padded width n).toList.map digitValue, ['Z']) := by
    apply digits_append fun c hc => isDigit_of_mem_padded hc
    intro c hc
    obtain rfl := Option.some.inj hc
    rfl
  have hlength : ((padded width n).toList.map digitValue).length = width := by
    rw [List.length_map, length_padded hwidth h]
  have htake : ((padded width n).toList.map digitValue ++ List.replicate 9 0).take 9 =
      (padded width n).toList.map digitValue ++ List.replicate (9 - width) 0 := by
    rw [List.take_append, hlength, List.take_of_length_le (by omega), List.take_replicate,
      Nat.min_eq_left (by omega)]
  cases hvalues : (padded width n).toList.map digitValue with
  | nil =>
    rw [hvalues] at hlength
    simp at hlength
    omega
  | cons v vs =>
    rw [fraction?, hdigits, hvalues]
    change some (ofDigits ((v :: vs ++ List.replicate 9 0).take 9), ['Z']) = _
    rw [← hvalues, htake, ofDigits_append_replicate, ofDigits_padded]

/-- The shortest exact fraction says every nanosecond. -/
theorem fraction?_fractionText {n : Nat} (h : n < 1000000000) :
    fraction? ((fractionText n).toList ++ ['Z']) = some (n, ['Z']) := by
  have hpoint : ∀ width m : Nat, (("." ++ padded width m).toList ++ ['Z']) =
      '.' :: ((padded width m).toList ++ ['Z']) := by
    intro width m
    simp
  unfold fractionText
  split
  · next hzero =>
    subst hzero
    rfl
  · split
    · rw [hpoint, fraction?_padded (by decide) (by decide) (by omega)]
      congr 2
      omega
    · split
      · rw [hpoint, fraction?_padded (by decide) (by decide) (by omega)]
        congr 2
        omega
      · rw [hpoint, fraction?_padded (by decide) (by decide) (by omega)]
        simp

/-! ## Leap seconds -/

/-- A leap second ends a minute. -/
def IsRegular (t : Timestamp) : Prop := 1000000000 ≤ t.nanosecond → t.second % 60 = 59

instance (t : Timestamp) : Decidable t.IsRegular := inferInstanceAs (Decidable (_ → _))

/-- The moment that the text of a moment shows: a leap second that does not end a minute is the second
after the one that carries it. -/
def written (t : Timestamp) : Timestamp :=
  if h : 1000000000 ≤ t.nanosecond ∧ t.second % 60 ≠ 59 then
    { day := t.day
      second := t.second + 1
      nanosecond := t.nanosecond - 1000000000
      second_lt := by have := t.second_lt; omega
      nanosecond_lt := by have := t.nanosecond_lt; omega }
  else t

theorem written_of_isRegular {t : Timestamp} (h : t.IsRegular) : t.written = t :=
  dif_neg fun hleap => hleap.2 (h hleap.1)

theorem isRegular_written (t : Timestamp) : t.written.IsRegular := by
  unfold written
  have hlt := t.nanosecond_lt
  split
  · intro hleap
    dsimp only at hleap
    omega
  · next h => exact fun hleap => Decidable.by_contra fun hne => h ⟨hleap, hne⟩

theorem year_written (t : Timestamp) : t.written.year = t.year := by
  unfold written
  split <;> rfl

/-- A moment and the one that is written have the same text. -/
theorem text_written (t : Timestamp) : t.written.text = t.text := by
  unfold written
  split
  · next h =>
    have hlt := t.nanosecond_lt
    obtain ⟨hhour, hminute, hsecond, hfraction⟩ : (t.second + 1) / 3600 = t.second / 3600 ∧
        (t.second + 1) / 60 % 60 = t.second / 60 % 60 ∧
        (t.second + 1) % 60 + (t.nanosecond - 1000000000) / 1000000000 =
          t.second % 60 + t.nanosecond / 1000000000 ∧
        (t.nanosecond - 1000000000) % 1000000000 = t.nanosecond % 1000000000 := by omega
    simp only [text, hhour, hminute, hsecond, hfraction]
  · rfl

/-! ## Moments -/

/-- A moment is the one of its seconds and nanoseconds. -/
theorem ofSeconds?_eq {t : Timestamp} (h : t.IsRegular) :
    ofSeconds? (t.day * 86400 + t.second) t.nanosecond = some t := by
  have hlt := t.second_lt
  have hday : (t.day * 86400 + t.second).fdiv 86400 = t.day := by
    rw [Int.fdiv_eq_ediv_of_nonneg _ (by decide)]
    omega
  have hsecond : ((t.day * 86400 + t.second).fmod 86400).toNat = t.second := by
    rw [Int.fmod_eq_emod_of_nonneg _ (by decide)]
    omega
  simp only [ofSeconds?, hday, hsecond]
  rw [dif_pos ⟨t.second_lt, t.nanosecond_lt, h⟩]

theorem isRegular_of_ofSeconds? {seconds : Int} {nanosecond : Nat} {t : Timestamp}
    (h : ofSeconds? seconds nanosecond = some t) : t.IsRegular := by
  unfold ofSeconds? at h
  dsimp only at h
  split at h
  · next hbounds =>
    obtain rfl := Option.some.inj h
    exact hbounds.2.2
  · cases h

/-- Only leap seconds that end a minute can be read. -/
theorem isRegular_of_parse? {s : String} {t : Timestamp} (h : parse? s = some t) :
    t.IsRegular := by
  unfold parse? at h
  -- the thirteen parts of a text are read one after the other
  iterate 13 obtain ⟨_, -, h⟩ := Option.bind_eq_some_iff.mp h
  dsimp only at h
  split at h
  · exact isRegular_of_ofSeconds? h
  · cases h

/-! ## Whole texts -/

theorem toList_text (t : Timestamp) : t.text.toList = (yearText t.year).toList ++ '-' ::
    ((padded 2 (CivilDate.ofDay t.day).month).toList ++ '-' ::
    ((padded 2 (CivilDate.ofDay t.day).day).toList ++ 'T' ::
    ((padded 2 (t.second / 3600)).toList ++ ':' ::
    ((padded 2 (t.second / 60 % 60)).toList ++ ':' ::
    ((padded 2 (t.second % 60 + t.nanosecond / 1000000000)).toList ++
    ((fractionText (t.nanosecond % 1000000000)).toList ++ ['Z'])))))) := by
  simp [text, year]

/-- A year without four digits starts with a sign, which is no digit. -/
theorem parse?_text_eq_none {t : Timestamp} (h : ¬ (0 ≤ t.year ∧ t.year ≤ 9999)) :
    parse? t.text = none := by
  have hsign : ∃ sign rest, t.text.toList = sign :: rest ∧ digit? sign = none := by
    rw [toList_text, yearText, if_neg h]
    split
    · exact ⟨'-', _, by rw [String.toList_append]; rfl, by decide⟩
    · exact ⟨'+', _, by rw [String.toList_append]; rfl, by decide⟩
  obtain ⟨sign, rest, htext, hdigit⟩ := hsign
  rw [parse?, htext, fixedNumber?_eq_none (by decide) hdigit]
  rfl

/-- The clock of a moment; the sixtieth second stands for a leap second. -/
theorem clock_bounds (t : Timestamp) : t.second / 3600 ≤ 23 ∧ t.second / 60 % 60 ≤ 59 ∧
    t.second % 60 + t.nanosecond / 1000000000 ≤ 60 := by
  have hsecond := t.second_lt
  have hnanosecond := t.nanosecond_lt
  omega

section

variable {t : Timestamp} (hregular : t.IsRegular)
include hregular

/-- The second of the day is that of the clock, where a leap second counts as the one before it. -/
theorem second_clock : t.second / 3600 * 3600 + t.second / 60 % 60 * 60 +
    min (t.second % 60 + t.nanosecond / 1000000000) 59 = t.second := by
  have hnanosecond := t.nanosecond_lt
  unfold IsRegular at hregular
  omega

/-- The nanoseconds are those of the fraction, and a second more in a leap second. -/
theorem nanosecond_clock : t.nanosecond % 1000000000 +
    (if t.second % 60 + t.nanosecond / 1000000000 = 60 then 1000000000 else 0) =
      t.nanosecond := by
  have hnanosecond := t.nanosecond_lt
  unfold IsRegular at hregular
  split <;> omega

/-- A year of four digits is read back with all that follows. -/
theorem parse?_text_eq_some (h : 0 ≤ t.year ∧ t.year ≤ 9999) : parse? t.text = some t := by
  have hvalid := CivilDate.isValid_ofDay t.day
  obtain ⟨hmonth, hday⟩ := CivilDate.ofDay_le t.day
  have hclock := t.clock_bounds
  have hyear : yearText t.year = padded 4 t.year.toNat := by rw [yearText, if_pos h]
  have hdate : (⟨(t.year.toNat : Int), (CivilDate.ofDay t.day).month,
      (CivilDate.ofDay t.day).day⟩ : CivilDate) = CivilDate.ofDay t.day := by
    have hsame : (t.year.toNat : Int) = (CivilDate.ofDay t.day).year := Int.toNat_of_nonneg h.1
    rw [hsame]
  have hyearNumber : t.year.toNat < 10 ^ 4 := by omega
  have hmonthNumber : (CivilDate.ofDay t.day).month < 10 ^ 2 := by omega
  have hdayNumber : (CivilDate.ofDay t.day).day < 10 ^ 2 := by omega
  have hhour : t.second / 3600 < 10 ^ 2 := by omega
  have hminute : t.second / 60 % 60 < 10 ^ 2 := by omega
  have hsecondNumber : t.second % 60 + t.nanosecond / 1000000000 < 10 ^ 2 := by omega
  have hfraction := fraction?_fractionText (Nat.mod_lt t.nanosecond (by decide : 0 < 1000000000))
  have hzone : offset? ['Z'] = some (0, []) := rfl
  have hdash : ∀ cs, oneOf? ['-'] ('-' :: cs) = some cs := fun cs => rfl
  have hcolon : ∀ cs, oneOf? [':'] (':' :: cs) = some cs := fun cs => rfl
  have htime : ∀ cs, oneOf? ['T', 't', ' '] ('T' :: cs) = some cs := fun cs => rfl
  rw [parse?, toList_text, hyear]
  -- the date, the clock and the fraction, each from what the one before it has left
  refine Option.bind_eq_some_iff.mpr ⟨_, fixedNumber?_padded (by decide) hyearNumber _, ?_⟩
  refine Option.bind_eq_some_iff.mpr ⟨_, hdash _, ?_⟩
  refine Option.bind_eq_some_iff.mpr ⟨_, fixedNumber?_padded (by decide) hmonthNumber _, ?_⟩
  refine Option.bind_eq_some_iff.mpr ⟨_, hdash _, ?_⟩
  refine Option.bind_eq_some_iff.mpr ⟨_, fixedNumber?_padded (by decide) hdayNumber _, ?_⟩
  refine Option.bind_eq_some_iff.mpr ⟨_, htime _, ?_⟩
  refine Option.bind_eq_some_iff.mpr ⟨_, fixedNumber?_padded (by decide) hhour _, ?_⟩
  refine Option.bind_eq_some_iff.mpr ⟨_, hcolon _, ?_⟩
  refine Option.bind_eq_some_iff.mpr ⟨_, fixedNumber?_padded (by decide) hminute _, ?_⟩
  refine Option.bind_eq_some_iff.mpr ⟨_, hcolon _, ?_⟩
  refine Option.bind_eq_some_iff.mpr ⟨_, fixedNumber?_padded (by decide) hsecondNumber _, ?_⟩
  refine Option.bind_eq_some_iff.mpr ⟨_, hfraction, ?_⟩
  refine Option.bind_eq_some_iff.mpr ⟨_, hzone, ?_⟩
  dsimp only
  rw [hdate, hvalid, second_clock hregular, nanosecond_clock hregular, if_pos (by simp [hclock]),
    CivilDate.toDay_ofDay, Int.zero_mul, Int.sub_zero]
  exact ofSeconds?_eq hregular

end

/-- The written form is read back exactly when the year has four digits. -/
theorem parse?_text (t : Timestamp) :
    parse? t.text = if 0 ≤ t.year ∧ t.year ≤ 9999 then some t.written else none := by
  split
  · next h =>
    rw [← text_written]
    exact parse?_text_eq_some t.isRegular_written (t.year_written.symm ▸ h)
  · next h => exact parse?_text_eq_none h

end GraphMapper.Timestamp
