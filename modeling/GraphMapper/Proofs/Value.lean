import GraphMapper.Proofs.Number.Double
import GraphMapper.Proofs.Timestamp.Text
import GraphMapper.Value.Stored

/-!
# Reading values back

A value that a field accepts can be read from what is written of it, unless the field holds date-times
(`isSome_read?_toJson_iff`): there any text is accepted, and what is read must be the text of a
moment.

A value that was read is written so that it is read again as the same value, unless it is a moment that
the change to UTC has moved out of the years of four digits (`reread_iff`).
-/

namespace GraphMapper

/-- Null belongs to every type. -/
@[simp] theorem FieldType.accepts_null (type : FieldType) : type.accepts .null = true := by
  cases type <;> rfl

namespace Value

/-- What is written of the value in a field of the type can be read. -/
def Readable : FieldType → Value → Prop
  | .dateTime, string s => (Timestamp.parse? s).isSome = true
  | .dateTime, timestamp t => 0 ≤ t.year ∧ t.year ≤ 9999
  | _, _ => True

theorem toInt64?_ofInt64 (i : Int64) : (Json.ofInt64 i).toInt64? = some i := by
  have hlt : i.toInt < 9223372036854775808 := i.toInt_lt
  simp [Json.ofInt64, Json.toInt64?, JsonNumber.ofInt64, JsonNumber.toInt64?, hlt]

/-- What is read is null only where null was written. -/
theorem isNull_of_read?_eq_some {type : FieldType} {raw : Json} {v : Value}
    (h : read? type raw = some v) : v.isNull = raw.isNull := by
  unfold read? at h
  split at h
  · next hnull =>
    obtain rfl := Option.some.inj h
    exact hnull.symm
  · next hnull =>
    rw [Bool.not_eq_true] at hnull
    rw [hnull]
    cases type with
    | json =>
      obtain rfl := Option.some.inj h
      rfl
    | _ =>
      obtain ⟨x, -, rfl⟩ := Option.map_eq_some_iff.mp h
      rfl

/-- What is read fits the type. -/
theorem accepts_of_read?_eq_some {type : FieldType} {raw : Json} {v : Value}
    (h : read? type raw = some v) : type.accepts v = true := by
  unfold read? at h
  split at h
  · obtain rfl := Option.some.inj h
    exact type.accepts_null
  · cases type with
    | json =>
      obtain rfl := Option.some.inj h
      rfl
    | _ =>
      obtain ⟨x, -, rfl⟩ := Option.map_eq_some_iff.mp h
      rfl

theorem read?_string_dateTime (s : String) :
    read? .dateTime (.string s) = (Timestamp.parse? s).map .timestamp := by
  simp [read?, Json.isNull, Json.toString?]

/-- A number can be read as a float, and what is not finite is written as null. -/
theorem isSome_read?_double (x : Double) : (read? .float (doubleToJson x)).isSome = true := by
  cases x with
  | finite x => rfl
  | infinite negative => rfl
  | nan => rfl

/-- Accepted values can be read back, except for texts and moments that are no date-times. -/
theorem isSome_read?_toJson_iff {type : FieldType} {v : Value} (h : type.accepts v = true) :
    (read? type v.toJson).isSome = true ↔ v.Readable type := by
  cases type with
  | string =>
    cases v with
    | null => exact iff_of_true rfl trivial
    | string s => exact iff_of_true rfl trivial
    | _ => cases h
  | integer =>
    cases v with
    | null => exact iff_of_true rfl trivial
    | int i =>
      have hread : read? .integer (toJson (.int i)) = ((Json.ofInt64 i).toInt64?).map .int := rfl
      rw [toInt64?_ofInt64] at hread
      exact iff_of_true (by rw [hread]; rfl) trivial
    | _ => cases h
  | float =>
    cases v with
    | null => exact iff_of_true rfl trivial
    | int i => exact iff_of_true rfl trivial
    | float x => exact iff_of_true (isSome_read?_double x) trivial
    | _ => cases h
  | boolean =>
    cases v with
    | null => exact iff_of_true rfl trivial
    | bool b => exact iff_of_true rfl trivial
    | _ => cases h
  | dateTime =>
    cases v with
    | null => exact iff_of_true rfl trivial
    | timestamp t =>
      rw [toJson, read?_string_dateTime, Option.isSome_map, Timestamp.parse?_text]
      change _ ↔ 0 ≤ t.year ∧ t.year ≤ 9999
      by_cases hyear : 0 ≤ t.year ∧ t.year ≤ 9999
      · rw [if_pos hyear]
        exact iff_of_true rfl hyear
      · rw [if_neg hyear]
        exact iff_of_false Bool.false_ne_true hyear
    | string s =>
      rw [toJson, read?_string_dateTime, Option.isSome_map]
      exact Iff.rfl
    | _ => cases h
  | json =>
    have hread : (read? .json v.toJson).isSome = true := by
      unfold read?
      split <;> rfl
    exact iff_of_true hread (by cases v <;> trivial)

/-! ## Reading twice -/

/-- A float that was read is finite. -/
theorem exists_finite_of_toDouble? {raw : Json} {x : Double} (h : raw.toDouble? = some x) :
    ∃ y, x = .finite y := by
  cases raw with
  | number n =>
    obtain rfl := Option.some.inj h
    exact n.exists_toDouble
  | _ => cases h

/-- What stored JSON is read as when it is not null. -/
theorem read?_of_not_null {raw : Json} (hnull : raw.isNull = false) (type : FieldType) :
    read? type raw = match type with
      | .string => raw.toString?.map .string
      | .integer => raw.toInt64?.map .int
      | .float => raw.toDouble?.map .float
      | .boolean => raw.toBool?.map .bool
      | .dateTime => (raw.toString?.bind Timestamp.parse?).map .timestamp
      | .json => some (.json raw) := by
  have hvalue : ¬ raw.isNull = true := by simp [hnull]
  cases type <;> exact if_neg hvalue

/-- A value that was read and is no moment is written as it is read. -/
theorem read?_toJson_of_ne {type : FieldType} {raw : Json} {v : Value} (htype : type ≠ .dateTime)
    (h : read? type raw = some v) : read? type v.toJson = some v := by
  cases hnull : raw.isNull with
  | true =>
    unfold read? at h
    rw [if_pos hnull] at h
    obtain rfl := Option.some.inj h
    rfl
  | false =>
    rw [read?_of_not_null hnull] at h
    cases type with
    | string =>
      obtain ⟨s, -, rfl⟩ := Option.map_eq_some_iff.mp h
      rfl
    | integer =>
      obtain ⟨i, -, rfl⟩ := Option.map_eq_some_iff.mp h
      have hread : read? .integer (toJson (.int i)) = ((Json.ofInt64 i).toInt64?).map .int := rfl
      rw [hread, toInt64?_ofInt64]
      rfl
    | float =>
      obtain ⟨x, hx, rfl⟩ := Option.map_eq_some_iff.mp h
      obtain ⟨y, rfl⟩ := exists_finite_of_toDouble? hx
      rfl
    | boolean =>
      obtain ⟨b, -, rfl⟩ := Option.map_eq_some_iff.mp h
      rfl
    | dateTime => exact absurd rfl htype
    | json =>
      obtain rfl := Option.some.inj h
      exact read?_of_not_null hnull .json

/-- A moment is read again if its year has four digits, and is not read at all if not. -/
theorem read?_toJson_timestamp {t : Timestamp} (h : t.IsRegular) :
    read? .dateTime (toJson (.timestamp t)) =
      if 0 ≤ t.year ∧ t.year ≤ 9999 then some (.timestamp t) else none := by
  rw [toJson, read?_string_dateTime, Timestamp.parse?_text, Timestamp.written_of_isRegular h]
  split <;> rfl

/-- A date-time is read as null or as a moment whose leap second, if it has one, ends a minute. -/
theorem read?_dateTime_cases {raw : Json} {v : Value} (h : read? .dateTime raw = some v) :
    v = .null ∨ ∃ t, v = .timestamp t ∧ t.IsRegular := by
  cases hnull : raw.isNull with
  | true =>
    unfold read? at h
    rw [if_pos hnull] at h
    exact Or.inl (Option.some.inj h).symm
  | false =>
    rw [read?_of_not_null hnull] at h
    obtain ⟨t, ht, rfl⟩ := Option.map_eq_some_iff.mp h
    obtain ⟨s, -, hs⟩ := Option.bind_eq_some_iff.mp ht
    exact Or.inr ⟨t, rfl, Timestamp.isRegular_of_parse? hs⟩

/-- Moments are read of date-times alone. -/
theorem eq_dateTime_of_read? {type : FieldType} {raw : Json} {t : Timestamp}
    (h : read? type raw = some (.timestamp t)) : type = .dateTime := by
  have haccepts := accepts_of_read?_eq_some h
  have hnull : raw.isNull = false := (isNull_of_read?_eq_some h).symm
  cases type with
  | dateTime => rfl
  | json =>
    rw [read?_of_not_null hnull] at h
    cases h
  | _ => cases haccepts

/-- A value that was read belongs to its type. What is written of it is read as the same value, unless
it is a moment of a year without four digits, and then it cannot be read at all. -/
theorem reread_iff {type : FieldType} {raw : Json} {v : Value} (h : read? type raw = some v) :
    type.accepts v = true ∧
      (read? type v.toJson = some v ↔ ∀ t, v = .timestamp t → 0 ≤ t.year ∧ t.year ≤ 9999) ∧
      (read? type v.toJson ≠ some v → read? type v.toJson = none) := by
  refine ⟨accepts_of_read?_eq_some h, ?_⟩
  by_cases htype : type = .dateTime
  · subst htype
    rcases read?_dateTime_cases h with rfl | ⟨t, rfl, hregular⟩
    · have hread : read? .dateTime (toJson .null) = some .null := rfl
      exact ⟨iff_of_true hread nofun, fun hne => absurd hread hne⟩
    · rw [read?_toJson_timestamp hregular]
      by_cases hyear : 0 ≤ t.year ∧ t.year ≤ 9999 <;> simp [hyear]
  · have hread := read?_toJson_of_ne htype h
    refine ⟨iff_of_true hread fun t ht => ?_, fun hne => absurd hread hne⟩
    subst ht
    exact absurd (eq_dateTime_of_read? h) htype

/-- The first moment of a year, as a clock one hour behind UTC says it. -/
theorem reread_iff_newYear : ∃ v, read? .dateTime (.string "2023-12-31T23:00:00-01:00") = some v ∧
    read? .dateTime v.toJson = some v := by
  have hok : ((Timestamp.parse? "2023-12-31T23:00:00-01:00").any fun t =>
      decide (0 ≤ t.year ∧ t.year ≤ 9999)) = true := by decide +kernel
  obtain ⟨t, ht, hyear⟩ := (Option.any_eq_true _ _).mp hok
  have hread : read? .dateTime (.string "2023-12-31T23:00:00-01:00") = some (.timestamp t) := by
    rw [read?_string_dateTime, ht]
    rfl
  obtain ⟨-, hreread, -⟩ := reread_iff hread
  refine ⟨_, hread, hreread.mpr fun t' ht' => ?_⟩
  obtain rfl := Value.timestamp.inj ht'
  exact of_decide_eq_true hyear

/-- The first moment of the year 0, as a clock one hour ahead of UTC says it, falls into the year
before, and what is written of it is not read. -/
theorem reread_yearZero : ∃ v, read? .dateTime (.string "0000-01-01T00:00:00+01:00") = some v ∧
    v.toJson = .string "-0001-12-31T23:00:00Z" ∧ read? .dateTime v.toJson = none := by
  have hok : ((Timestamp.parse? "0000-01-01T00:00:00+01:00").any fun t =>
      t.text == "-0001-12-31T23:00:00Z") = true := by decide +kernel
  obtain ⟨t, ht, htext⟩ := (Option.any_eq_true _ _).mp hok
  have hread : read? .dateTime (.string "0000-01-01T00:00:00+01:00") = some (.timestamp t) := by
    rw [read?_string_dateTime, ht]
    rfl
  have hjson : toJson (.timestamp t) = .string "-0001-12-31T23:00:00Z" :=
    congrArg Json.string (eq_of_beq htext)
  refine ⟨_, hread, hjson, ?_⟩
  have hnone : (Timestamp.parse? "-0001-12-31T23:00:00Z").isNone = true := by decide +kernel
  rw [hjson, read?_string_dateTime, Option.isNone_iff_eq_none.mp hnone]
  rfl

end Value

end GraphMapper
