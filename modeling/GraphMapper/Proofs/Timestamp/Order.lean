import GraphMapper.Proofs.Timestamp.Text
import GraphMapper.Value.Stored

/-!
# The order of timestamps and of their texts

Stored timestamps are compared as strings. Dates and clocks have fixed widths, so their texts are in
the order of the moments (`precedes_text_iff_fraction`). Fractions have not: a text with fewer digits
ends where the other goes on, and its `Z` comes after every digit and after the point. A moment that
is written as another with the last digits left out (`Timestamp.Abridges`) is the earlier of the two
and has the later text.

A leap second that does not end a minute is written as the second after the one that carries it, so a
moment in it may be written as late as a later one of that second, or later still
(`Timestamp.Overruns`). All other moments are in the order of their texts
(`Value.precedes_toJson_iff`).
-/

namespace GraphMapper

open Text

namespace Timestamp

/-! ## Precision -/

/-- How many digits a fraction is written with. -/
def digitCount (nanosecond : Nat) : Nat :=
  if nanosecond = 0 then 0
  else if nanosecond % 1000000 = 0 then 3
  else if nanosecond % 1000 = 0 then 6
  else 9

/-- How many digits follow the seconds. -/
def precision (t : Timestamp) : Nat := digitCount (t.nanosecond % 1000000000)

/-- The moment is the other one without its last digits, and it is written with fewer. -/
def Abridges (a b : Timestamp) : Prop :=
  a.day = b.day ∧ a.second = b.second ∧ a.precision < b.precision ∧
    a.nanosecond = b.nanosecond / 10 ^ (9 - a.precision) * 10 ^ (9 - a.precision)

instance (a b : Timestamp) : Decidable (a.Abridges b) :=
  inferInstanceAs (Decidable (_ ∧ _ ∧ _ ∧ _))

/-! ## Fractions -/

/-- The fraction is the other one without its last digits, and it is written with fewer. -/
def Cuts (n m : Nat) : Prop :=
  digitCount n < digitCount m ∧ n = m / 10 ^ (9 - digitCount n) * 10 ^ (9 - digitCount n)

theorem digitCount_eq_zero_iff {n : Nat} : digitCount n = 0 ↔ n = 0 := by
  unfold digitCount
  split
  · simp [*]
  · split <;> (try split) <;> simp [*]

theorem digitCount_cases (n : Nat) :
    digitCount n = 0 ∨ digitCount n = 3 ∨ digitCount n = 6 ∨ digitCount n = 9 := by
  unfold digitCount
  split
  · exact Or.inl rfl
  · split
    · exact Or.inr (Or.inl rfl)
    · split
      · exact Or.inr (Or.inr (Or.inl rfl))
      · exact Or.inr (Or.inr (Or.inr rfl))

/-- A fraction that is written has at most nine digits, and these are all of it. -/
theorem exists_fractionText {n : Nat} (h : n < 10 ^ 9) (hn : n ≠ 0) :
    digitCount n ≤ 9 ∧ ∃ k, n = k * 10 ^ (9 - digitCount n) ∧ k < 10 ^ digitCount n ∧
      (fractionText n).toList = '.' :: (padded (digitCount n) k).toList := by
  unfold digitCount fractionText
  rw [if_neg hn, if_neg hn]
  split
  · exact ⟨by decide, n / 1000000, by omega, by omega, by simp⟩
  · split
    · exact ⟨by decide, n / 1000, by omega, by omega, by simp⟩
    · exact ⟨by decide, n, by omega, by omega, by simp⟩

/-- No number comes after the end of a timestamp. -/
theorem precedes_end (width n : Nat) (hwidth : 0 < width) (h : n < 10 ^ width) :
    charsPrecede ['Z'] ((padded width n).toList ++ ['Z']) = false ∧
      charsPrecede ((padded width n).toList ++ ['Z']) ['Z'] = true := by
  have hlength := length_padded hwidth h
  cases hdigits : (padded width n).toList with
  | nil =>
    rw [hdigits] at hlength
    exact absurd hlength (Nat.ne_of_lt hwidth)
  | cons c rest =>
    have hdigit : c.isDigit = true := isDigit_of_mem_padded (hdigits ▸ List.mem_cons_self)
    obtain ⟨hcode, hvalue⟩ := toNat_of_isDigit hdigit
    have hsmall : c.toNat < 'Z'.toNat := by
      have hrange : '0'.toNat + 10 ≤ 'Z'.toNat := by decide
      omega
    rw [← Bool.not_eq_true, List.cons_append, charsPrecede_cons, charsPrecede_cons]
    refine ⟨?_, Or.inl hsmall⟩
    rintro (hlt | ⟨rfl, -⟩)
    · omega
    · exact Nat.lt_irrefl _ hsmall

/-- Of two numbers that are followed by the end, the digits that both have are compared first; if
they are the same, the longer number comes first. -/
theorem precedes_digits {width width' k l : Nat} (hwidth : 0 < width) (hwidth' : 0 < width')
    (hk : k < 10 ^ width) (hl : l < 10 ^ width') :
    charsPrecede ((padded width k).toList ++ ['Z']) ((padded width' l).toList ++ ['Z']) = true ↔
      if width ≤ width' then k < l / 10 ^ (width' - width) else k / 10 ^ (width - width') ≤ l := by
  have hfirst : ∀ {w more n : Nat}, n < 10 ^ (w + more) → n / 10 ^ more < 10 ^ w := by
    intro w more n hn
    apply Nat.div_lt_of_lt_mul
    rwa [Nat.mul_comm, ← Nat.pow_add]
  have hlast : ∀ more n : Nat, n % 10 ^ more < 10 ^ more := fun more n =>
    Nat.mod_lt n (Nat.pow_pos (by decide))
  rcases Nat.lt_trichotomy width width' with hlt | rfl | hgt
  · obtain ⟨more, rfl⟩ : ∃ more, width' = width + more := ⟨width' - width, by omega⟩
    obtain ⟨hend, -⟩ := precedes_end more (l % 10 ^ more) (by omega) (hlast more l)
    rw [if_pos (by omega), Nat.add_sub_cancel_left, toList_padded_add hwidth (by omega) hl,
      List.append_assoc, charsPrecede_padded hwidth hk (hfirst hl), hend]
    simp
  · rw [if_pos (Nat.le_refl width), charsPrecede_padded hwidth hk hl, charsPrecede_irrefl]
    simp
  · obtain ⟨more, rfl⟩ : ∃ more, width = width' + more := ⟨width - width', by omega⟩
    obtain ⟨-, hend⟩ := precedes_end more (k % 10 ^ more) (by omega) (hlast more k)
    rw [if_neg (by omega), Nat.add_sub_cancel_left, toList_padded_add hwidth' (by omega) hk,
      List.append_assoc, charsPrecede_padded hwidth' (hfirst hk) hl, hend]
    simp [Nat.le_iff_lt_or_eq]

/-- A number is below a quotient if its multiple is below the dividend and no part of it. -/
theorem lt_div_iff {width k m : Nat} (hwidth : 0 < width) :
    k < m / width ↔ k * width < m ∧ k * width ≠ m / width * width := by
  have hparts := Nat.div_add_mod' m width
  have hrest := Nat.mod_lt m hwidth
  have hgap : ∀ a b : Nat, a < b → a * width + width ≤ b * width := fun a b hlt => by
    rw [← Nat.succ_mul]
    exact Nat.mul_le_mul_right width hlt
  rcases Nat.lt_trichotomy k (m / width) with hlt | rfl | hgt
  · have := hgap _ _ hlt
    omega
  · omega
  · have := hgap _ _ hgt
    omega

theorem cuts_zero {n : Nat} (h : n < 10 ^ 9) (hn : n ≠ 0) : Cuts 0 n := by
  refine ⟨Nat.pos_of_ne_zero (mt digitCount_eq_zero_iff.mp hn), ?_⟩
  rw [digitCount_eq_zero_iff.mpr rfl, Nat.div_eq_of_lt h, Nat.zero_mul]

theorem not_cuts_zero (n : Nat) : ¬ Cuts n 0 := fun h => Nat.not_lt_zero _ h.1

/-- What is written of two fractions is in their order, unless one of them cuts the other. -/
theorem precedes_fraction_iff {n m : Nat} (hn : n < 10 ^ 9) (hm : m < 10 ^ 9) :
    charsPrecede ((fractionText n).toList ++ ['Z']) ((fractionText m).toList ++ ['Z']) = true ↔
      (n < m ∧ ¬ Cuts n m) ∨ Cuts m n := by
  by_cases hzero : n = 0
  · subst hzero
    by_cases hzero' : m = 0
    · subst hzero'
      simp [charsPrecede_irrefl, not_cuts_zero]
    · obtain ⟨-, l, -, -, htext⟩ := exists_fractionText hm hzero'
      have hpoint : charsPrecede ((fractionText 0).toList ++ ['Z'])
          ((fractionText m).toList ++ ['Z']) = false := by
        rw [htext]
        rfl
      simp [hpoint, cuts_zero hm hzero', not_cuts_zero]
  by_cases hzero' : m = 0
  · subst hzero'
    obtain ⟨-, k, -, -, htext⟩ := exists_fractionText hn hzero
    have hpoint : charsPrecede ((fractionText n).toList ++ ['Z']) ['Z'] = true := by
      rw [htext]
      rfl
    exact iff_of_true hpoint (Or.inr (cuts_zero hn hzero))
  -- both have digits, so that both have the point, and then the digits that both have
  obtain ⟨hwidth, k, hk, hkwidth, htext⟩ := exists_fractionText hn hzero
  obtain ⟨hwidth', l, hl, hlwidth, htext'⟩ := exists_fractionText hm hzero'
  have hpos := Nat.pos_of_ne_zero (mt digitCount_eq_zero_iff.mp hzero)
  have hpos' := Nat.pos_of_ne_zero (mt digitCount_eq_zero_iff.mp hzero')
  rw [htext, htext', List.cons_append, List.cons_append, charsPrecede_cons_self,
    precedes_digits hpos hpos' hkwidth hlwidth]
  simp only [Cuts]
  generalize digitCount n = d at *
  generalize digitCount m = e at *
  split
  · next hle =>
    have hquotient : m / 10 ^ (9 - d) = l / 10 ^ (e - d) := by
      rw [hl, show 9 - d = (e - d) + (9 - e) by omega, Nat.pow_add,
        Nat.mul_div_mul_right _ _ (Nat.pow_pos (by decide))]
    have hexact : d = e → m / 10 ^ (9 - d) * 10 ^ (9 - d) = m := by
      rintro rfl
      rw [hl, Nat.mul_div_cancel _ (Nat.pow_pos (by decide))]
    rw [← hquotient, lt_div_iff (Nat.pow_pos (by decide)), ← hk]
    omega
  · next hgt =>
    have hquotient : n / 10 ^ (9 - e) = k / 10 ^ (d - e) := by
      rw [hk, show 9 - e = (d - e) + (9 - d) by omega, Nat.pow_add,
        Nat.mul_div_mul_right _ _ (Nat.pow_pos (by decide))]
    have hexact : n = m → n / 10 ^ (9 - e) * 10 ^ (9 - e) = m := by
      rintro rfl
      rw [hl, Nat.mul_div_cancel _ (Nat.pow_pos (by decide))]
    rw [← hquotient, ← Nat.not_lt, lt_div_iff (Nat.pow_pos (by decide)), ← hl]
    omega

/-! ## Dates and clocks -/

section

variable {a b : Timestamp} (hregular : a.IsRegular) (hregular' : b.IsRegular)
include hregular hregular'

/-- Moments of a day are in the order of their clocks: of the hours, then of the minutes, then of
the seconds, of which a leap second is the sixtieth, and then of what follows. -/
theorem clock_order (P : Prop) :
    a.second / 3600 < b.second / 3600 ∨ (a.second / 3600 = b.second / 3600 ∧
      (a.second / 60 % 60 < b.second / 60 % 60 ∨ (a.second / 60 % 60 = b.second / 60 % 60 ∧
        (a.second % 60 + a.nanosecond / 1000000000 < b.second % 60 + b.nanosecond / 1000000000 ∨
          (a.second % 60 + a.nanosecond / 1000000000 = b.second % 60 + b.nanosecond / 1000000000 ∧
            P))))) ↔
    a.second < b.second ∨ (a.second = b.second ∧
      (a.nanosecond / 1000000000 < b.nanosecond / 1000000000 ∨
        (a.nanosecond / 1000000000 = b.nanosecond / 1000000000 ∧ P))) := by
  have hnanosecond := a.nanosecond_lt
  have hnanosecond' := b.nanosecond_lt
  unfold IsRegular at hregular hregular'
  by_cases hP : P <;> simp only [hP, and_true, and_false, or_false] <;> omega

/-- Texts are in the order of the days, then of the clocks, and then of the fractions as they are
written. -/
theorem precedes_text_iff_fraction (ha : 0 ≤ a.year ∧ a.year ≤ 9999)
    (hb : 0 ≤ b.year ∧ b.year ≤ 9999) : precedes a.text b.text = true ↔
      a.day < b.day ∨ (a.day = b.day ∧ (a.second < b.second ∨ (a.second = b.second ∧
        (a.nanosecond / 1000000000 < b.nanosecond / 1000000000 ∨
          (a.nanosecond / 1000000000 = b.nanosecond / 1000000000 ∧
            charsPrecede ((fractionText (a.nanosecond % 1000000000)).toList ++ ['Z'])
              ((fractionText (b.nanosecond % 1000000000)).toList ++ ['Z']) = true))))) := by
  have hdate := CivilDate.ofDay_le a.day
  have hdate' := CivilDate.ofDay_le b.day
  have hclock := a.clock_bounds
  have hclock' := b.clock_bounds
  rw [precedes, toList_text, toList_text, yearText, yearText, if_pos ha, if_pos hb,
    charsPrecede_padded (by decide) (by omega) (by omega), charsPrecede_cons_self,
    charsPrecede_padded (by decide) (by omega) (by omega), charsPrecede_cons_self,
    charsPrecede_padded (by decide) (by omega) (by omega), charsPrecede_cons_self,
    charsPrecede_padded (by decide) (by omega) (by omega), charsPrecede_cons_self,
    charsPrecede_padded (by decide) (by omega) (by omega), charsPrecede_cons_self,
    charsPrecede_padded (by decide) (by omega) (by omega), clock_order hregular hregular']
  have hyear : (a.year.toNat < b.year.toNat ↔ a.year < b.year) ∧
      (a.year.toNat = b.year.toNat ↔ a.year = b.year) := by omega
  rw [hyear.1, hyear.2]
  exact CivilDate.ofDay_order a.day b.day _

end

/-! ## Moments -/

/-- One moment abridges another if they have the same second and the fraction of the one cuts that
of the other. -/
theorem abridges_iff {a b : Timestamp} : a.Abridges b ↔ a.day = b.day ∧ a.second = b.second ∧
    a.nanosecond / 1000000000 = b.nanosecond / 1000000000 ∧
      Cuts (a.nanosecond % 1000000000) (b.nanosecond % 1000000000) := by
  unfold Abridges Cuts precision
  -- the last digits are counted within the second, whichever number of digits is left
  rcases digitCount_cases (a.nanosecond % 1000000000) with hdigits | hdigits | hdigits | hdigits <;>
    (rw [hdigits]; generalize digitCount (b.nanosecond % 1000000000) = width; omega)

/-- The order of texts is that of the moments, but a moment that abridges another has the later
text. -/
theorem precedes_text_iff_of_isRegular {a b : Timestamp} (hregular : a.IsRegular)
    (hregular' : b.IsRegular) (ha : 0 ≤ a.year ∧ a.year ≤ 9999)
    (hb : 0 ≤ b.year ∧ b.year ≤ 9999) : precedes a.text b.text = true ↔
      (a.isBefore b = true ∧ ¬ a.Abridges b) ∨ b.Abridges a := by
  have hfractions := precedes_fraction_iff
    (show a.nanosecond % 1000000000 < 10 ^ 9 from Nat.mod_lt _ (by decide))
    (show b.nanosecond % 1000000000 < 10 ^ 9 from Nat.mod_lt _ (by decide))
  rw [precedes_text_iff_fraction hregular hregular' ha hb, hfractions, abridges_iff, abridges_iff,
    isBefore]
  simp only [Bool.or_eq_true, Bool.and_eq_true, decide_eq_true_eq]
  by_cases hcuts : Cuts (a.nanosecond % 1000000000) (b.nanosecond % 1000000000) <;>
    by_cases hcuts' : Cuts (b.nanosecond % 1000000000) (a.nanosecond % 1000000000) <;>
      simp only [hcuts, hcuts', and_true, and_false, not_true, not_false_eq_true, or_true,
        or_false] <;> omega

/-- What abridges a moment comes before it. -/
theorem Abridges.isBefore {a b : Timestamp} (h : a.Abridges b) : a.isBefore b = true := by
  obtain ⟨hday, hsecond, hprecision, hnanosecond⟩ := h
  have hle : a.nanosecond ≤ b.nanosecond := hnanosecond ▸ Nat.div_mul_le_self _ _
  have hne : a.nanosecond ≠ b.nanosecond := by
    intro hsame
    rw [precision, precision, hsame] at hprecision
    exact Nat.lt_irrefl _ hprecision
  simp [Timestamp.isBefore, hday, hsecond, Nat.lt_of_le_of_ne hle hne]

theorem Abridges.asymm {a b : Timestamp} (h : a.Abridges b) : ¬ b.Abridges a := fun h' =>
  Nat.lt_asymm h.2.2.1 h'.2.2.1

/-! ## Leap seconds inside a minute -/

/-- The order of texts is that of the moments that are written. -/
theorem precedes_text_iff {a b : Timestamp} (ha : 0 ≤ a.year ∧ a.year ≤ 9999)
    (hb : 0 ≤ b.year ∧ b.year ≤ 9999) : precedes a.text b.text = true ↔
      (a.written.isBefore b.written = true ∧ ¬ a.written.Abridges b.written) ∨
        b.written.Abridges a.written := by
  rw [← a.text_written, ← b.text_written]
  exact precedes_text_iff_of_isRegular a.isRegular_written b.isRegular_written
    (a.year_written.symm ▸ ha) (b.year_written.symm ▸ hb)

/-- The moment lies in a leap second that does not end its minute, and the other one in the second
after the one that carries it, no further into that second. So it is the earlier one, and is not
written as the earlier one. -/
def Overruns (a b : Timestamp) : Prop :=
  a.day = b.day ∧ a.second + 1 = b.second ∧ a.second % 60 ≠ 59 ∧
    b.nanosecond + 1000000000 ≤ a.nanosecond

instance (a b : Timestamp) : Decidable (a.Overruns b) :=
  inferInstanceAs (Decidable (_ ∧ _ ∧ _ ∧ _))

/-- A leap second that ends its minute overruns nothing. -/
theorem IsRegular.not_overruns {a : Timestamp} (h : a.IsRegular) (b : Timestamp) :
    ¬ a.Overruns b := by
  rintro ⟨-, -, hsecond, hnanosecond⟩
  exact hsecond (h (by omega))

/-- What is earlier is written as the earlier one unless it overruns the other. -/
theorem isBefore_written_iff {a b : Timestamp} (h : a.isBefore b = true) :
    a.written.isBefore b.written = true ↔ ¬ a.Overruns b := by
  have hnanosecond := a.nanosecond_lt
  have hnanosecond' := b.nanosecond_lt
  unfold Overruns
  simp only [isBefore, Bool.or_eq_true, Bool.and_eq_true, decide_eq_true_eq] at h ⊢
  unfold written
  split <;> split <;> (try dsimp only) <;> omega

theorem eq_of_isBefore_eq_false {a b : Timestamp} (h : a.isBefore b = false)
    (h' : b.isBefore a = false) : a = b := by
  simp only [isBefore, Bool.or_eq_false_iff, Bool.and_eq_false_iff, decide_eq_false_iff_not] at h h'
  obtain ⟨hday, hsecond, hnanosecond⟩ : a.day = b.day ∧ a.second = b.second ∧
      a.nanosecond = b.nanosecond := by omega
  cases a
  cases b
  subst hday hsecond hnanosecond
  rfl

theorem isBefore_asymm {a b : Timestamp} (h : a.isBefore b = true) : b.isBefore a = false := by
  rw [← Bool.not_eq_true]
  simp only [isBefore, Bool.or_eq_true, Bool.and_eq_true, decide_eq_true_eq] at h ⊢
  omega

/-- What overruns a moment comes before it. -/
theorem Overruns.isBefore {a b : Timestamp} (h : a.Overruns b) : a.isBefore b = true := by
  obtain ⟨hday, hsecond, -, -⟩ := h
  have hlt : a.second < b.second := by omega
  simp [Timestamp.isBefore, hday, hlt]

/-- The text of an earlier moment comes first unless it abridges that of the later one. Where the
earlier one overruns the other, its text comes first only if it is abridged itself. -/
theorem precedes_text_iff_of_isBefore {a b : Timestamp} (ha : 0 ≤ a.year ∧ a.year ≤ 9999)
    (hb : 0 ≤ b.year ∧ b.year ≤ 9999) (h : a.isBefore b = true) : precedes a.text b.text = true ↔
      ¬ a.written.Abridges b.written ∧ (b.written.Abridges a.written ↔ a.Overruns b) := by
  rw [precedes_text_iff ha hb, isBefore_written_iff h]
  have habridges : a.written.Abridges b.written → ¬ b.written.Abridges a.written :=
    Abridges.asymm
  -- what is abridged is written as the later one, and the later one of the two is not earlier
  have hoverruns : b.written.Abridges a.written → a.Overruns b := fun habridged => by
    have hback := isBefore_asymm habridged.isBefore
    rwa [← Bool.not_eq_true, isBefore_written_iff h, Decidable.not_not] at hback
  by_cases hoverrun : a.Overruns b
  · simpa [hoverrun] using fun habridged habridges' => habridges habridges' habridged
  · simp [hoverrun, mt hoverruns hoverrun]

/-- An earlier and a later moment are in the order of their texts if what is written of the earlier one
does not abridge the other, and is abridged by it exactly where the earlier one overruns it. -/
theorem inOrder_iff_of_isBefore {a b : Timestamp} (ha : 0 ≤ a.year ∧ a.year ≤ 9999)
    (hb : 0 ≤ b.year ∧ b.year ≤ 9999) (h : a.isBefore b = true) :
    (a.isBefore b = true ↔ precedes a.text b.text = true) ∧
        (b.isBefore a = true ↔ precedes b.text a.text = true) ↔
      (a.written.Abridges b.written ↔ b.Overruns a) ∧
        (b.written.Abridges a.written ↔ a.Overruns b) := by
  have hback : b.isBefore a = false := isBefore_asymm h
  have hasymm : precedes a.text b.text = true → ¬ precedes b.text a.text = true :=
    fun hfirst hsecond => absurd (charsPrecede_trans hfirst hsecond) (by simp [charsPrecede_irrefl])
  have hoverruns : ¬ b.Overruns a := fun hoverrun => by simpa [hback] using hoverrun.isBefore
  rw [precedes_text_iff_of_isBefore ha hb h] at hasymm ⊢
  simp only [h, hback, hoverruns, true_iff, Bool.false_eq_true, false_iff, iff_false]
  exact and_iff_left_of_imp hasymm

end Timestamp

/-! ## Stored timestamps -/

/-- Stored timestamps whose years have four digits are in the order of the moments that are written, but
one that abridges another has the later text. So two of them are in order exactly if what is written of
the one abridges the other where the other overruns it, and nowhere else. -/
theorem Value.precedes_toJson_iff {a b : Timestamp} (ha : 0 ≤ a.year ∧ a.year ≤ 9999)
    (hb : 0 ≤ b.year ∧ b.year ≤ 9999) :
    ∃ s s', (Value.timestamp a).toJson = .string s ∧ (Value.timestamp b).toJson = .string s' ∧
      (precedes s s' = true ↔
        (a.written.isBefore b.written = true ∧ ¬ a.written.Abridges b.written) ∨
          b.written.Abridges a.written) ∧
      ((a.isBefore b = true ↔ precedes s s' = true) ∧ (b.isBefore a = true ↔ precedes s' s = true) ↔
        (a.written.Abridges b.written ↔ b.Overruns a) ∧
          (b.written.Abridges a.written ↔ a.Overruns b)) := by
  refine ⟨a.text, b.text, rfl, rfl, Timestamp.precedes_text_iff ha hb, ?_⟩
  cases h : a.isBefore b with
  | true => exact h ▸ Timestamp.inOrder_iff_of_isBefore ha hb h
  | false =>
    cases h' : b.isBefore a with
    | true =>
      have hback := Timestamp.inOrder_iff_of_isBefore hb ha h'
      rw [h, h'] at hback
      exact and_comm.trans (hback.trans and_comm)
    | false =>
      obtain rfl := Timestamp.eq_of_isBefore_eq_false h h'
      have hself : precedes a.text a.text = false := charsPrecede_irrefl _
      have habridges : ¬ a.written.Abridges a.written := fun h => h.asymm h
      have hoverruns : ¬ a.Overruns a := fun hoverrun => by simpa [h] using hoverrun.isBefore
      simp [hself, habridges, hoverruns]

/-- Half a second into a leap second that follows the first half minute of a year, and a fifth of a second
into the second after it. The one is earlier and is written as half a second, the other as a fifth. -/
theorem Value.precedes_toJson_iff_newYear :
    let a : Timestamp := ⟨19723, 30, 1500000000, by decide, by decide⟩
    let b : Timestamp := ⟨19723, 31, 200000000, by decide, by decide⟩
    (0 ≤ a.year ∧ a.year ≤ 9999) ∧ (0 ≤ b.year ∧ b.year ≤ 9999) ∧ a.Overruns b ∧
      ¬ b.written.Abridges a.written ∧
      ∃ s s', (Value.timestamp a).toJson = .string s ∧ (Value.timestamp b).toJson = .string s' ∧
        (precedes s s' = true ↔
          (a.written.isBefore b.written = true ∧ ¬ a.written.Abridges b.written) ∨
            b.written.Abridges a.written) ∧
        ((a.isBefore b = true ↔ precedes s s' = true) ∧
            (b.isBefore a = true ↔ precedes s' s = true) ↔
          (a.written.Abridges b.written ↔ b.Overruns a) ∧
            (b.written.Abridges a.written ↔ a.Overruns b)) := by
  intro a b
  have ha : 0 ≤ a.year ∧ a.year ≤ 9999 := by decide
  have hb : 0 ≤ b.year ∧ b.year ≤ 9999 := by decide
  exact ⟨ha, hb, by decide, by decide, precedes_toJson_iff ha hb⟩

/-- Half a second later is written before the second itself. -/
theorem Value.halfSecond_precedes :
    let a : Timestamp := ⟨19723, 0, 0, by decide, by decide⟩
    let b : Timestamp := ⟨19723, 0, 500000000, by decide, by decide⟩
    a.isBefore b = true ∧
      (Value.timestamp a).toJson = .string "2024-01-01T00:00:00Z" ∧
      (Value.timestamp b).toJson = .string "2024-01-01T00:00:00.500Z" ∧
      precedes "2024-01-01T00:00:00Z" "2024-01-01T00:00:00.500Z" = false ∧
      precedes "2024-01-01T00:00:00.500Z" "2024-01-01T00:00:00Z" = true := by
  intro a b
  have ha : a.text = "2024-01-01T00:00:00Z" := by decide +kernel
  have hb : b.text = "2024-01-01T00:00:00.500Z" := by decide +kernel
  exact ⟨by decide, congrArg Json.string ha, congrArg Json.string hb, by decide, by decide⟩

end GraphMapper
