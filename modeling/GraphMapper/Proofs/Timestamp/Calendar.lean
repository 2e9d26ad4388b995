import GraphMapper.Timestamp.Basic

/-!
# The calendar

`CivilDate.ofDay` gives dates that the calendar has (`isValid_ofDay`), and `CivilDate.toDay` counts
the same day back (`toDay_ofDay`). Days are in the order of their dates (`ofDay_order`).

A day of an era is taken apart into a century, four years, a year and a day of the year, counted from
March (`exists_place`). The division by 365 that `ofDay` uses finds the same year (`yearOfEra_eq`).
-/

namespace GraphMapper.CivilDate

/-! ## Days of an era -/

/-- The place of a day in its era. Only the last year of four has a day 365, and of the last years of
centuries only that of the last century. -/
structure Place where
  century : Nat
  four : Nat
  rest : Nat
  day : Nat
  century_le : century ≤ 3
  four_le : four ≤ 24
  rest_le : rest ≤ 3
  day_le : day ≤ 365
  leap : day = 365 → rest = 3 ∧ (four = 24 → century = 3)

namespace Place

def year (p : Place) : Nat := 100 * p.century + 4 * p.four + p.rest

/-- The day of the era. -/
def index (p : Place) : Nat := 36524 * p.century + 1461 * p.four + 365 * p.rest + p.day

theorem year_le (p : Place) : p.year ≤ 399 := by
  have := p.century_le
  have := p.four_le
  have := p.rest_le
  unfold year
  omega

end Place

/-- Every day of an era has its place. -/
theorem exists_place {n : Nat} (h : n < 146097) : ∃ p : Place, p.index = n := by
  let century := min (n / 36524) 3
  let four := (n - 36524 * century) / 1461
  let rest := min ((n - 36524 * century - 1461 * four) / 365) 3
  refine ⟨⟨century, four, rest, n - 36524 * century - 1461 * four - 365 * rest,
    by omega, by omega, by omega, by omega, by omega⟩, ?_⟩
  unfold Place.index
  dsimp only
  omega

/-- The year of the era, as it is found by division. -/
def yearOfEra (n : Nat) : Nat := (n - n / 1460 + n / 36524 - n / 146096) / 365

theorem yearOfEra_eq (p : Place) : yearOfEra p.index = p.year := by
  obtain ⟨century, four, rest, day, hcentury, hfour, hrest, hday, hleap⟩ := p
  simp only [Place.index, Place.year, yearOfEra]
  generalize hn : 36524 * century + 1461 * four + 365 * rest + day = n
  have hcenturies : n / 36524 = century + n / 146096 := by
    by_cases hlast : n = 146096
    · omega
    · have hera : n / 146096 = 0 := Nat.div_eq_of_lt (by omega)
      have hcentury : 36524 * century ≤ n ∧ n < 36524 * (century + 1) := by omega
      omega
  -- the days that the first years of four lack make up for at most one more
  have hfours : n / 1460 = 25 * century + four ∨
      (n / 1460 = 25 * century + four + 1 ∧ 1 ≤ day) := by omega
  have hlast : day = 365 → n / 1460 = 25 * century + four + 1 := by omega
  rw [hcenturies]
  have hle : n / 1460 ≤ n := Nat.div_le_self n 1460
  rcases hfours with hfours | ⟨hfours, hday'⟩
  · rw [hfours]
    omega
  · rw [hfours]
    omega

/-- The days of an era before a year. -/
theorem Place.index_eq (p : Place) :
    p.index = p.year * 365 + p.year / 4 - p.year / 100 + p.day := by
  obtain ⟨century, four, rest, day, hcentury, hfour, hrest, hday, hleap⟩ := p
  simp only [Place.index, Place.year]
  omega

/-! ## Days of a year -/

/-- The month of a day of the year, and the day of that month. -/
def monthDay (dayOfYear : Nat) : Nat × Nat :=
  let monthFromMarch := (5 * dayOfYear + 2) / 153
  (if monthFromMarch < 10 then monthFromMarch + 3 else monthFromMarch - 9,
    dayOfYear - (153 * monthFromMarch + 2) / 5 + 1)

/-- The day of the year, counted back. -/
theorem dayOfYear_monthDay : ∀ n < 366,
    (153 * (((monthDay n).1 + 9) % 12) + 2) / 5 + (monthDay n).2 - 1 = n := by
  decide +kernel

/-- Only the last day of the year may be a leap day. -/
theorem monthDay_bounds : ∀ n < 366, 1 ≤ (monthDay n).1 ∧ (monthDay n).1 ≤ 12 ∧
    1 ≤ (monthDay n).2 ∧ (monthDay n).2 ≤ 31 ∧
    ((monthDay n).1 ∈ [4, 6, 9, 11] → (monthDay n).2 ≤ 30) ∧
    ((monthDay n).1 = 2 → (monthDay n).2 ≤ 29 ∧ (n < 365 → (monthDay n).2 ≤ 28)) := by
  decide +kernel

/-! ## Dates -/

theorem daysInMonth_le (year : Int) (month : Nat) : daysInMonth year month ≤ 31 := by
  unfold daysInMonth
  split
  · split <;> decide
  · split <;> decide

theorem ofDay_eq {day : Int} {p : Place} (h : p.index = ((day + 719468) % 146097).toNat) :
    ofDay day =
      ⟨if (monthDay p.day).1 ≤ 2 then (day + 719468) / 146097 * 400 + p.year + 1
        else (day + 719468) / 146097 * 400 + p.year, (monthDay p.day).1, (monthDay p.day).2⟩ := by
  have hyear := yearOfEra_eq p
  have hday : p.index - (365 * p.year + p.year / 4 - p.year / 100) = p.day := by
    rw [p.index_eq]
    omega
  rw [yearOfEra] at hyear
  simp only [ofDay, monthDay, Int.fdiv_eq_ediv_of_nonneg _ (show (0 : Int) ≤ 146097 by decide),
    Int.fmod_eq_emod_of_nonneg _ (show (0 : Int) ≤ 146097 by decide), ← h, hyear, hday]
  rfl

theorem exists_place_of_day (day : Int) :
    ∃ p : Place, p.index = ((day + 719468) % 146097).toNat := by
  apply exists_place
  omega

/-- The last day of a year of 366 days falls into a leap year. -/
theorem isLeapYear_of_place {p : Place} (h : p.day = 365) (era : Int) :
    isLeapYear (era * 400 + p.year + 1) = true := by
  obtain ⟨hrest, hcentury⟩ := p.leap h
  have hfour := p.four_le
  have hle := p.century_le
  simp only [isLeapYear, Int.fmod_eq_emod_of_nonneg _ (show (0 : Int) ≤ 4 by decide),
    Int.fmod_eq_emod_of_nonneg _ (show (0 : Int) ≤ 100 by decide),
    Int.fmod_eq_emod_of_nonneg _ (show (0 : Int) ≤ 400 by decide), Place.year, hrest,
    Bool.and_eq_true, Bool.or_eq_true, beq_iff_eq, bne_iff_ne]
  refine ⟨by omega, ?_⟩
  by_cases hlast : p.four = 24
  · right
    have := hcentury hlast
    omega
  · left
    omega

/-- Every day has a date of the calendar. -/
theorem isValid_ofDay (day : Int) : (ofDay day).isValid = true := by
  obtain ⟨p, hp⟩ := exists_place_of_day day
  have hday : p.day < 366 := Nat.lt_succ_of_le p.day_le
  obtain ⟨hmonth, hmonth', hfirst, hlast, hthirty, hfebruary⟩ := monthDay_bounds p.day hday
  rw [ofDay_eq hp]
  simp only [isValid, Bool.and_eq_true, decide_eq_true_eq]
  refine ⟨⟨⟨hmonth, hmonth'⟩, hfirst⟩, ?_⟩
  by_cases htwo : (monthDay p.day).1 = 2
  · obtain ⟨hlong, hshort⟩ := hfebruary htwo
    rw [daysInMonth, if_pos htwo, if_pos (Nat.le_of_eq htwo)]
    by_cases hleap : p.day = 365
    · rw [isLeapYear_of_place hleap, if_pos rfl]
      exact hlong
    · have hle : (monthDay p.day).2 ≤ 28 := hshort (by omega)
      split
      · exact hlong
      · exact hle
  · rw [daysInMonth, if_neg htwo]
    split
    · next hshort => exact hthirty (by simpa using hshort)
    · exact hlast

theorem ofDay_le (day : Int) : (ofDay day).month ≤ 12 ∧ (ofDay day).day ≤ 31 := by
  have hvalid := isValid_ofDay day
  simp only [isValid, Bool.and_eq_true, decide_eq_true_eq] at hvalid
  obtain ⟨⟨⟨-, hmonth⟩, -⟩, hday⟩ := hvalid
  exact ⟨hmonth, Nat.le_trans hday (daysInMonth_le _ _)⟩

/-- A day is counted back from its date. -/
theorem toDay_ofDay (day : Int) : (ofDay day).toDay = day := by
  obtain ⟨p, hp⟩ := exists_place_of_day day
  have hyear := p.year_le
  have hindex := p.index_eq
  have hmonthDay := dayOfYear_monthDay p.day (Nat.lt_succ_of_le p.day_le)
  obtain ⟨-, -, hfirst, -⟩ := monthDay_bounds p.day (Nat.lt_succ_of_le p.day_le)
  rw [ofDay_eq hp]
  generalize hera : (day + 719468) / 146097 = era at *
  have hmarch : (if (monthDay p.day).1 ≤ 2 then
      (if (monthDay p.day).1 ≤ 2 then era * 400 + p.year + 1 else era * 400 + p.year) - 1
      else (if (monthDay p.day).1 ≤ 2 then era * 400 + p.year + 1 else era * 400 + p.year)) =
      era * 400 + (p.year : Int) := by
    split
    · omega
    · rfl
  simp only [toDay, hmarch, Int.fdiv_eq_ediv_of_nonneg _ (show (0 : Int) ≤ 400 by decide),
    Int.fmod_eq_emod_of_nonneg _ (show (0 : Int) ≤ 400 by decide)]
  have hdiv : (era * 400 + (p.year : Int)) / 400 = era := by omega
  have hmod : ((era * 400 + (p.year : Int)) % 400).toNat = p.year := by omega
  rw [hdiv, hmod, hmonthDay, ← hindex, hp]
  omega

/-! ## The order of dates -/

/-- A number that grows with the date. -/
def rank (d : CivilDate) : Int := 512 * d.year + 32 * d.month + d.day

/-- What the day of the year, counted from March, adds to the rank of a date. -/
def dayRank (dayOfYear : Nat) : Nat :=
  (if (monthDay dayOfYear).1 ≤ 2 then 512 else 0) + 32 * (monthDay dayOfYear).1 +
    (monthDay dayOfYear).2

theorem dayRank_succ : ∀ n < 365, dayRank n < dayRank (n + 1) := by
  decide +kernel

theorem dayRank_bounds : ∀ n < 366, 97 ≤ dayRank n ∧ dayRank n < 97 + 512 := by
  decide +kernel

theorem dayRank_lt {n m : Nat} (h : n < m) (hm : m < 366) : dayRank n < dayRank m := by
  induction m with
  | zero => exact absurd h (Nat.not_lt_zero n)
  | succ m ih =>
    have hlast := dayRank_succ m (by omega)
    rcases Nat.lt_succ_iff_lt_or_eq.mp h with hlt | rfl
    · exact Nat.lt_trans (ih hlt (by omega)) hlast
    · exact hlast

/-- A later day of an era is in a later year, or later in the same year. -/
theorem Place.lt_of_index_lt {p q : Place} (h : p.index < q.index) :
    p.year < q.year ∨ (p.year = q.year ∧ p.day < q.day) := by
  obtain ⟨century, four, rest, day, hcentury, hfour, hrest, hday, hleap⟩ := p
  obtain ⟨century', four', rest', day', hcentury', hfour', hrest', hday', hleap'⟩ := q
  simp only [Place.index, Place.year] at h ⊢
  omega

theorem rank_ofDay {day : Int} {p : Place} (h : p.index = ((day + 719468) % 146097).toNat) :
    (ofDay day).rank = 512 * ((day + 719468) / 146097 * 400 + p.year) + dayRank p.day := by
  rw [ofDay_eq h, rank, dayRank]
  dsimp only
  split <;> omega

/-- Later days have later dates. -/
theorem rank_ofDay_lt {day day' : Int} (h : day < day') : (ofDay day).rank < (ofDay day').rank := by
  obtain ⟨p, hp⟩ := exists_place_of_day day
  obtain ⟨q, hq⟩ := exists_place_of_day day'
  have hbounds := dayRank_bounds p.day (Nat.lt_succ_of_le p.day_le)
  have hbounds' := dayRank_bounds q.day (Nat.lt_succ_of_le q.day_le)
  have hyear := p.year_le
  rw [rank_ofDay hp, rank_ofDay hq]
  by_cases hera : (day + 719468) / 146097 = (day' + 719468) / 146097
  · rcases Place.lt_of_index_lt (p := p) (q := q) (by omega) with hlt | ⟨hsame, hlt⟩
    · omega
    · have hday := dayRank_lt hlt (Nat.lt_succ_of_le q.day_le)
      omega
  · omega

/-- Of two dates of the calendar the earlier one has the smaller rank. -/
theorem lex_of_rank_lt {d e : CivilDate} (hd : d.month ≤ 12 ∧ d.day ≤ 31)
    (he : e.month ≤ 12 ∧ e.day ≤ 31) (h : d.rank < e.rank) :
    d.year < e.year ∨ (d.year = e.year ∧
      (d.month < e.month ∨ (d.month = e.month ∧ d.day < e.day))) := by
  unfold rank at h
  omega

/-- Days are in the order of their dates: of the years, then of the months, then of the days of the
month, and then of what follows. -/
theorem ofDay_order (day day' : Int) (P : Prop) :
    (ofDay day).year < (ofDay day').year ∨ ((ofDay day).year = (ofDay day').year ∧
      ((ofDay day).month < (ofDay day').month ∨ ((ofDay day).month = (ofDay day').month ∧
        ((ofDay day).day < (ofDay day').day ∨ ((ofDay day).day = (ofDay day').day ∧ P))))) ↔
    day < day' ∨ (day = day' ∧ P) := by
  rcases Int.lt_trichotomy day day' with hlt | rfl | hgt
  · have hlex := lex_of_rank_lt (ofDay_le day) (ofDay_le day') (rank_ofDay_lt hlt)
    refine iff_of_true ?_ (Or.inl hlt)
    exact hlex.imp_right fun hyear => ⟨hyear.1, hyear.2.imp_right fun hmonth =>
      ⟨hmonth.1, Or.inl hmonth.2⟩⟩
  · simp
  · have hlex := lex_of_rank_lt (ofDay_le day') (ofDay_le day) (rank_ofDay_lt hgt)
    exact iff_of_false (by omega) (by omega)

end GraphMapper.CivilDate
