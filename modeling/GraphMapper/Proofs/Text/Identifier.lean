import GraphMapper.Json.Printer
import GraphMapper.Text.Identifier
import Mathlib.Data.Nat.Notation

/-!
# Identifiers in a text

An identifier holds name characters alone, and so does what is made of identifiers and underscores.
A path is its segments with dots between them (`intercalate_split`), pieces without dots are found again
between them (`splitChars_intercalate`), and a key of identifiers and dots
has nothing to escape (`quote_eq`).
-/

namespace GraphMapper.Text

/-! ## Characters -/

theorem isNameChar_of_isNameStart {c : Char} (h : isNameStart c = true) : isNameChar c = true := by
  rw [isNameStart, Bool.or_eq_true] at h
  rw [isNameChar, Bool.or_eq_true, Bool.or_eq_true]
  exact h.imp_left Or.inl

theorem isDigit_of_isDigit {c : Char} (h : c.isDigit = true) : isDigit c = true := by
  simpa [isDigit, Char.isDigit, UInt32.le_iff_toNat_le] using h

theorem isNameChar_of_isDigit {c : Char} (h : isDigit c = true) : isNameChar c = true := by
  rw [isNameChar, h, Bool.or_true, Bool.true_or]

/-- The digits of a number. -/
theorem isDigit_of_mem_toString {n : Nat} {c : Char} (h : c ∈ (toString n).toList) :
    isDigit c = true := by
  have hmem : c ∈ Nat.toDigits 10 n := Nat.toList_repr ▸ h
  exact isDigit_of_isDigit (Nat.isDigit_of_mem_toDigits (by decide) (by decide) hmem)

/-! ## Identifiers -/

theorem isNameChar_of_isIdentifier {s : String} (h : isIdentifier s = true) :
    ∀ c ∈ s.toList, isNameChar c = true := by
  unfold isIdentifier at h
  split at h
  · cases h
  · next first rest heq =>
    rw [Bool.and_eq_true, List.all_eq_true] at h
    rw [heq]
    exact List.forall_mem_cons.mpr ⟨isNameChar_of_isNameStart h.1, h.2⟩

theorem not_mem_of_isIdentifier {s : String} (h : isIdentifier s = true) {c : Char}
    (hc : isNameChar c = false) : c ∉ s.toList := by
  intro hmem
  rw [isNameChar_of_isIdentifier h c hmem] at hc
  cases hc

/-- Name characters behind an identifier make a longer one. -/
theorem isIdentifier_append {s t : String} (hs : isIdentifier s = true)
    (ht : ∀ c ∈ t.toList, isNameChar c = true) : isIdentifier (s ++ t) = true := by
  unfold isIdentifier at hs ⊢
  split at hs
  · cases hs
  · next first rest heq =>
    rw [Bool.and_eq_true, List.all_eq_true] at hs
    rw [String.toList_append, heq, List.cons_append]
    simpa [hs.1] using And.intro hs.2 ht

theorem isIdentifier_of_isCollectionName {s : String} (h : isCollectionName s = true) :
    isIdentifier s = true := by
  rw [isCollectionName, Bool.and_eq_true] at h
  exact h.1

/-! ## Paths -/

theorem splitChars_ne_nil (sep : Char) (cs : List Char) : splitChars sep cs ≠ [] := by
  cases cs with
  | nil => simp [splitChars]
  | cons c rest =>
    unfold splitChars
    split
    · simp
    · split <;> simp

theorem split_ne_nil (sep : Char) (s : String) : split sep s ≠ [] := by
  rw [split, Ne, List.map_eq_nil_iff]
  exact splitChars_ne_nil sep _

/-- The pieces between separators, with the separators put back. -/
theorem intercalate_splitChars (sep : Char) (cs : List Char) :
    [sep].intercalate (splitChars sep cs) = cs := by
  have hne := splitChars_ne_nil sep
  induction cs with
  | nil => rfl
  | cons c rest ih =>
    rw [splitChars]
    split
    · next hsep =>
      rw [List.intercalate_cons_of_ne_nil (hne rest), ih, hsep]
      rfl
    · split
      · next hnil => exact absurd hnil (hne rest)
      · next piece pieces hpieces =>
        rw [hpieces] at ih
        cases pieces with
        | nil => simpa [List.intercalate] using ih
        | cons next others =>
          rw [List.intercalate_cons_of_ne_nil (List.cons_ne_nil _ _)] at ih ⊢
          rw [← ih]
          rfl

/-- A text is what it was split into, with the separators put back. -/
theorem intercalate_split (s : String) : ".".intercalate (split '.' s) = s := by
  rw [← String.toList_inj, String.toList_intercalate, split, List.map_map]
  have hid : (String.toList ∘ String.ofList) = id := funext fun _ => String.toList_ofList
  rw [hid, List.map_id]
  exact intercalate_splitChars '.' s.toList

theorem splitChars_of_not_mem {sep : Char} {cs : List Char} (h : sep ∉ cs) :
    splitChars sep cs = [cs] := by
  induction cs with
  | nil => rfl
  | cons c rest ih =>
    obtain ⟨hc, hrest⟩ := not_or.mp (mt List.mem_cons.mpr h)
    rw [splitChars, if_neg (Ne.symm hc), ih hrest]

/-- A separator splits what is before it from what is behind it. -/
theorem splitChars_append_cons (sep : Char) (cs rest : List Char) :
    splitChars sep (cs ++ sep :: rest) = splitChars sep cs ++ splitChars sep rest := by
  induction cs with
  | nil => simp [splitChars]
  | cons c others ih =>
    rw [List.cons_append, splitChars, splitChars, ih]
    split
    · rfl
    · cases hpieces : splitChars sep others with
      | nil => exact absurd hpieces (splitChars_ne_nil sep others)
      | cons piece pieces => rfl

theorem splitChars_append {sep : Char} {cs : List Char} (h : sep ∉ cs) (rest : List Char) :
    splitChars sep (cs ++ sep :: rest) = cs :: splitChars sep rest := by
  rw [splitChars_append_cons, splitChars_of_not_mem h, List.singleton_append]

/-- Pieces without the separator are found again when it has been put between them. -/
theorem splitChars_intercalate {sep : Char} {pieces : List (List Char)} (hne : pieces ≠ [])
    (h : ∀ piece ∈ pieces, sep ∉ piece) : splitChars sep ([sep].intercalate pieces) = pieces := by
  induction pieces with
  | nil => exact absurd rfl hne
  | cons piece rest ih =>
    obtain ⟨hpiece, hrest⟩ := List.forall_mem_cons.mp h
    cases rest with
    | nil => rw [List.intercalate_singleton, splitChars_of_not_mem hpiece]
    | cons next others =>
      rw [List.intercalate_cons_cons, List.append_assoc, List.singleton_append,
        splitChars_append hpiece, ih (List.cons_ne_nil _ _) hrest]

/-! ## Keys -/

/-- The characters of keys: those of names, and dots. -/
def isKeyChar (c : Char) : Bool := isNameChar c || c == '.'

theorem le_of_isKeyChar {c : Char} (h : isKeyChar c = true) : '.'.toNat ≤ c.toNat := by
  simp only [isKeyChar, isNameChar, isLetter, isDigit, Bool.or_eq_true, Bool.and_eq_true,
    decide_eq_true_eq, beq_iff_eq] at h
  have hdot : '.'.toNat = 46 := rfl
  have hlower : 'a'.toNat = 97 := rfl
  have hupper : 'A'.toNat = 65 := rfl
  have hzero : '0'.toNat = 48 := rfl
  rcases h with (((h | h) | h) | rfl) | rfl
  · omega
  · omega
  · omega
  · decide
  · decide

theorem escapeChar_of_isKeyChar {c : Char} (h : isKeyChar c = true) : Json.escapeChar c = [c] := by
  have hle := le_of_isKeyChar h
  have hdot : '.'.toNat = 46 := rfl
  unfold Json.escapeChar
  split
  case h_8 => exact if_neg (by omega)
  all_goals exact absurd h (by decide)

/-- Names and dots stand in quotes as they are. -/
theorem quote_eq {s : String} (h : ∀ c ∈ s.toList, isKeyChar c = true) :
    Json.quote s = "\"" ++ s ++ "\"" := by
  have hescape : s.toList.flatMap Json.escapeChar = s.toList := by
    generalize s.toList = cs at h
    induction cs with
    | nil => rfl
    | cons c rest ih =>
      rw [List.forall_mem_cons] at h
      rw [List.flatMap_cons, escapeChar_of_isKeyChar h.1, ih h.2]
      rfl
  rw [← String.toList_inj, Json.quote, String.toList_ofList, hescape]
  simp

end GraphMapper.Text
