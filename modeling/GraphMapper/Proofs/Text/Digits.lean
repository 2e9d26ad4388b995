import GraphMapper.Proofs.Order
import GraphMapper.Text.Digits
import Mathlib.Algebra.Group.Nat.Defs

/-!
# Numbers as digits

A number that is written with leading zeros is read back by its width (`fixedNumber?_padded`), and a
run of digits ends where the digits end (`digits_append`). Numbers of one width are in the order of
their texts (`charsPrecede_padded`); the first digits of a number are those of a smaller number
(`toList_padded_add`).
-/

namespace GraphMapper.Text

/-! ## Runs of digits -/

/-- The value of a character that is known to be a digit. -/
def digitValue (c : Char) : Nat := c.toNat - '0'.toNat

theorem digit?_of_isDigit {c : Char} (h : c.isDigit = true) : digit? c = some (digitValue c) := by
  rw [Char.isDigit, Bool.and_eq_true, decide_eq_true_eq, decide_eq_true_eq] at h
  have hrange : '0'.toNat ≤ c.toNat ∧ c.toNat ≤ '9'.toNat := h
  rw [digit?, if_pos hrange, digitValue]

theorem mapM_digit? {cs : List Char} (h : ∀ c ∈ cs, c.isDigit = true) :
    cs.mapM digit? = some (cs.map digitValue) := by
  induction cs with
  | nil => rfl
  | cons c rest ih =>
    rw [List.forall_mem_cons] at h
    rw [List.mapM_cons, digit?_of_isDigit h.1, ih h.2]
    rfl

/-- The digits at the front are followed by something else, or by nothing. -/
theorem digits_append {cs rest : List Char} (h : ∀ c ∈ cs, c.isDigit = true)
    (hrest : ∀ c ∈ rest.head?, digit? c = none) :
    digits (cs ++ rest) = (cs.map digitValue, rest) := by
  induction cs with
  | nil =>
    cases rest with
    | nil => rfl
    | cons c others => simp [digits, hrest c rfl]
  | cons c others ih =>
    rw [List.forall_mem_cons] at h
    rw [List.cons_append, digits, digit?_of_isDigit h.1, ih h.2]
    rfl

theorem ofDigits_map_digitValue (cs : List Char) :
    ofDigits (cs.map digitValue) = Nat.ofDigitChars 10 cs 0 := by
  rw [ofDigits, List.foldl_map, Nat.ofDigitChars_eq_foldl]
  rfl

/-- Digits that are read on from a number. -/
theorem foldl_digits (n : Nat) (ds : List Nat) :
    ds.foldl (fun n d => 10 * n + d) n = n * 10 ^ ds.length + ofDigits ds := by
  induction ds generalizing n with
  | nil => simp [ofDigits]
  | cons d ds ih =>
    have hfirst : ofDigits (d :: ds) = d * 10 ^ ds.length + ofDigits ds := by
      rw [ofDigits, List.foldl_cons, ih, Nat.mul_zero, Nat.zero_add]
    rw [List.foldl_cons, ih, hfirst, List.length_cons, Nat.pow_succ', Nat.add_mul, Nat.add_assoc,
      Nat.mul_comm 10, Nat.mul_assoc]

theorem ofDigits_append (ds es : List Nat) :
    ofDigits (ds ++ es) = ofDigits ds * 10 ^ es.length + ofDigits es := by
  rw [ofDigits, List.foldl_append, foldl_digits, ← ofDigits]

theorem ofDigits_cons (d : Nat) (ds : List Nat) :
    ofDigits (d :: ds) = d * 10 ^ ds.length + ofDigits ds := by
  rw [ofDigits, List.foldl_cons, foldl_digits, Nat.mul_zero, Nat.zero_add]

/-- Zeros after the digits multiply the number. -/
theorem ofDigits_append_replicate (ds : List Nat) (count : Nat) :
    ofDigits (ds ++ List.replicate count 0) = ofDigits ds * 10 ^ count := by
  have hzeros : ofDigits (List.replicate count 0) = 0 := by
    induction count with
    | zero => rfl
    | succ count ih => rw [List.replicate_succ, ofDigits_cons, ih, Nat.zero_mul]
  rw [ofDigits_append, hzeros, List.length_replicate, Nat.add_zero]

/-- The code of a digit is that of zero and its value more. -/
theorem toNat_of_isDigit {c : Char} (h : c.isDigit = true) :
    c.toNat = '0'.toNat + digitValue c ∧ digitValue c < 10 := by
  rw [Char.isDigit, Bool.and_eq_true, decide_eq_true_eq, decide_eq_true_eq] at h
  have hfirst : '0'.toNat ≤ c.toNat := h.1
  have hlast : c.toNat ≤ '9'.toNat := h.2
  have hrange : '9'.toNat = '0'.toNat + 9 := rfl
  unfold digitValue
  omega

theorem ofDigits_map_digitValue_lt {cs : List Char} (h : ∀ c ∈ cs, c.isDigit = true) :
    ofDigits (cs.map digitValue) < 10 ^ cs.length := by
  induction cs with
  | nil => simp [ofDigits]
  | cons c rest ih =>
    obtain ⟨hc, hrest⟩ := List.forall_mem_cons.mp h
    have hfirst : digitValue c + 1 ≤ 10 := (toNat_of_isDigit hc).2
    rw [List.map_cons, ofDigits_cons, List.length_map, List.length_cons, Nat.pow_succ']
    calc digitValue c * 10 ^ rest.length + ofDigits (rest.map digitValue)
        < digitValue c * 10 ^ rest.length + 10 ^ rest.length := Nat.add_lt_add_left (ih hrest) _
      _ = (digitValue c + 1) * 10 ^ rest.length := (Nat.succ_mul _ _).symm
      _ ≤ 10 * 10 ^ rest.length := Nat.mul_le_mul_right _ hfirst

/-- Runs of digits of one length are in the order of their numbers, and if these are the same, in the
order of what follows. -/
theorem charsPrecede_digits {cs cs' : List Char} (h : ∀ c ∈ cs, c.isDigit = true)
    (h' : ∀ c ∈ cs', c.isDigit = true) (hlength : cs.length = cs'.length)
    (rest rest' : List Char) :
    charsPrecede (cs ++ rest) (cs' ++ rest') = true ↔
      ofDigits (cs.map digitValue) < ofDigits (cs'.map digitValue) ∨
        (ofDigits (cs.map digitValue) = ofDigits (cs'.map digitValue) ∧
          charsPrecede rest rest' = true) := by
  induction cs generalizing cs' with
  | nil =>
    obtain rfl := List.eq_nil_of_length_eq_zero hlength.symm
    simp
  | cons c cs ih =>
    cases cs' with
    | nil => cases hlength
    | cons c' cs' =>
      obtain ⟨hc, hcs⟩ := List.forall_mem_cons.mp h
      obtain ⟨hc', hcs'⟩ := List.forall_mem_cons.mp h'
      have hlength : cs.length = cs'.length := Nat.succ.inj hlength
      have hlt := ofDigits_map_digitValue_lt hcs
      have hlt' := ofDigits_map_digitValue_lt hcs'
      rw [List.cons_append, List.cons_append, charsPrecede_cons, ih hcs hcs' hlength,
        List.map_cons, List.map_cons, ofDigits_cons, ofDigits_cons, List.length_map,
        List.length_map, ← hlength]
      rw [← hlength] at hlt'
      have hcode := (toNat_of_isDigit hc).1
      have hcode' := (toNat_of_isDigit hc').1
      generalize ofDigits (cs.map digitValue) = n at *
      generalize ofDigits (cs'.map digitValue) = n' at *
      generalize 10 ^ cs.length = width at *
      -- a digit that is smaller makes up for all that follow
      have hsmaller : ∀ d d' k k' : Nat, d < d' → k < width → d * width + k < d' * width + k' := by
        intro d d' k k' hd hk
        calc d * width + k < d * width + width := Nat.add_lt_add_left hk _
          _ = (d + 1) * width := (Nat.succ_mul _ _).symm
          _ ≤ d' * width := Nat.mul_le_mul_right _ hd
          _ ≤ d' * width + k' := Nat.le_add_right _ _
      rcases Nat.lt_trichotomy (digitValue c) (digitValue c') with hd | hd | hd
      · have hless := hsmaller _ _ n n' hd hlt
        exact iff_of_true (Or.inl (by omega)) (Or.inl hless)
      · obtain rfl : c = c' := Char.toNat_inj.mp (by omega)
        simp
      · have hmore := hsmaller _ _ n' n hd hlt'
        have hne : c ≠ c' := fun h => Nat.ne_of_gt hd (congrArg digitValue h)
        exact iff_of_false (by simp [hne]; omega) (by omega)

/-- Runs of digits of one length that spell the same number are the same. -/
theorem eq_of_ofDigits_eq {cs cs' : List Char} (h : ∀ c ∈ cs, c.isDigit = true)
    (h' : ∀ c ∈ cs', c.isDigit = true) (hlength : cs.length = cs'.length)
    (hnumber : ofDigits (cs.map digitValue) = ofDigits (cs'.map digitValue)) : cs = cs' := by
  have horder := charsPrecede_digits h h' hlength [] []
  have horder' := charsPrecede_digits h' h hlength.symm [] []
  simp only [List.append_nil, hnumber, Nat.lt_irrefl, charsPrecede_irrefl, Bool.false_eq_true,
    and_false, or_false, iff_false, Bool.not_eq_true] at horder horder'
  exact charsPrecede_connected horder horder'

/-! ## Numbers with leading zeros -/

theorem toList_padded (width n : Nat) : (padded width n).toList =
    List.replicate (width - (Nat.toDigits 10 n).length) '0' ++ Nat.toDigits 10 n := by
  rw [padded, String.toList_ofList]

theorem isDigit_of_mem_padded {width n : Nat} {c : Char} (h : c ∈ (padded width n).toList) :
    c.isDigit = true := by
  rw [toList_padded, List.mem_append] at h
  rcases h with hzero | hdigit
  · rw [List.eq_of_mem_replicate hzero]
    rfl
  · exact Nat.isDigit_of_mem_toDigits (by decide) (by decide) hdigit

theorem length_padded {width n : Nat} (hwidth : 0 < width) (h : n < 10 ^ width) :
    (padded width n).toList.length = width := by
  have hlength : (Nat.toDigits 10 n).length ≤ width :=
    (Nat.length_toDigits_le_iff (by decide) hwidth).mpr h
  rw [toList_padded, List.length_append, List.length_replicate]
  omega

theorem ofDigits_padded (width n : Nat) :
    ofDigits ((padded width n).toList.map digitValue) = n := by
  rw [ofDigits_map_digitValue, toList_padded, Nat.ofDigitChars_append,
    Nat.ofDigitChars_replicate_zero, Nat.mul_zero, Nat.ofDigitChars_ten_toDigits]

/-- Numbers of one width are in the order of their texts. -/
theorem charsPrecede_padded {width n n' : Nat} (hwidth : 0 < width) (h : n < 10 ^ width)
    (h' : n' < 10 ^ width) (rest rest' : List Char) :
    charsPrecede ((padded width n).toList ++ rest) ((padded width n').toList ++ rest') = true ↔
      n < n' ∨ (n = n' ∧ charsPrecede rest rest' = true) := by
  have hdigits := charsPrecede_digits (fun c hc => isDigit_of_mem_padded hc)
    (fun c hc => isDigit_of_mem_padded hc)
    ((length_padded hwidth h).trans (length_padded hwidth h').symm) rest rest'
  rwa [ofDigits_padded, ofDigits_padded] at hdigits

/-- The first digits of a number are those of what is left of it without the last ones. -/
theorem toList_padded_add {width more n : Nat} (hwidth : 0 < width) (hmore : 0 < more)
    (h : n < 10 ^ (width + more)) : (padded (width + more) n).toList =
      (padded width (n / 10 ^ more)).toList ++ (padded more (n % 10 ^ more)).toList := by
  have hfirst : n / 10 ^ more < 10 ^ width := by
    apply Nat.div_lt_of_lt_mul
    rwa [Nat.mul_comm, ← Nat.pow_add]
  have hlast : n % 10 ^ more < 10 ^ more := Nat.mod_lt n (Nat.pow_pos (by decide))
  apply eq_of_ofDigits_eq fun c hc => isDigit_of_mem_padded hc
  · intro c hc
    rcases List.mem_append.mp hc with hc | hc
    · exact isDigit_of_mem_padded hc
    · exact isDigit_of_mem_padded hc
  · rw [List.length_append, length_padded (by omega) h, length_padded hwidth hfirst,
      length_padded hmore hlast]
  · rw [List.map_append, ofDigits_append, List.length_map, length_padded hmore hlast,
      ofDigits_padded, ofDigits_padded, ofDigits_padded, Nat.div_add_mod']

/-- A number of at most `width` digits is read back, and the text after it is left. -/
theorem fixedNumber?_padded {width n : Nat} (hwidth : 0 < width) (h : n < 10 ^ width)
    (rest : List Char) :
    fixedNumber? width ((padded width n).toList ++ rest) = some (n, rest) := by
  have hlength := length_padded hwidth h
  have htake : ((padded width n).toList ++ rest).take width = (padded width n).toList := by
    rw [List.take_append_of_le_length (by omega), List.take_of_length_le (by omega)]
  have hdrop : ((padded width n).toList ++ rest).drop width = rest := by
    rw [List.drop_append_of_le_length (by omega), List.drop_of_length_le (by omega),
      List.nil_append]
  have hdigits := mapM_digit? fun c (hc : c ∈ (padded width n).toList) => isDigit_of_mem_padded hc
  simp [fixedNumber?, htake, hdrop, hdigits, hlength, ofDigits_padded]

/-- A text that does not start with a digit starts with no number. -/
theorem fixedNumber?_eq_none {width : Nat} (hwidth : 0 < width) {c : Char} (h : digit? c = none)
    (rest : List Char) : fixedNumber? width (c :: rest) = none := by
  obtain ⟨width, rfl⟩ := Nat.exists_eq_succ_of_ne_zero (Nat.ne_of_gt hwidth)
  simp [fixedNumber?, h]

end GraphMapper.Text
