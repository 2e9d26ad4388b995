import GraphMapper.Schema.Entity

/-!
# Orders of keys

The order of strings and the order of members are strict and total (`LawfulPrecedence`). Sorted
tables rely on nothing else: what is sorted by such an order has no entry twice.
-/

namespace GraphMapper

/-- The order of a key type is strict and leaves no two keys apart without an order. -/
class LawfulPrecedence (κ : Type) [Precedence κ] : Prop where
  irrefl : ∀ a : κ, Precedence.precedes a a = false
  trans : ∀ a b c : κ, Precedence.precedes a b = true → Precedence.precedes b c = true →
    Precedence.precedes a c = true
  connected : ∀ a b : κ, Precedence.precedes a b = false → Precedence.precedes b a = false → a = b

theorem LawfulPrecedence.asymm {κ : Type} [Precedence κ] [LawfulPrecedence κ] {a b : κ}
    (h : Precedence.precedes a b = true) : Precedence.precedes b a = false := by
  cases hback : Precedence.precedes b a with
  | false => rfl
  | true =>
    have hself := LawfulPrecedence.trans _ _ _ h hback
    rw [LawfulPrecedence.irrefl] at hself
    cases hself

namespace Text

theorem charsPrecede_cons {a b : Char} {as bs : List Char} :
    charsPrecede (a :: as) (b :: bs) = true ↔
      a.toNat < b.toNat ∨ (a = b ∧ charsPrecede as bs = true) := by
  rw [charsPrecede, Bool.or_eq_true, Bool.and_eq_true, Nat.blt_eq, beq_iff_eq, Char.toNat_inj]

/-- A first character that both have decides nothing. -/
theorem charsPrecede_cons_self (c : Char) (as bs : List Char) :
    charsPrecede (c :: as) (c :: bs) = charsPrecede as bs := by
  simp [charsPrecede]

theorem charsPrecede_irrefl (as : List Char) : charsPrecede as as = false := by
  induction as with
  | nil => rfl
  | cons a rest ih =>
    rw [← Bool.not_eq_true, charsPrecede_cons]
    rintro (hlt | ⟨-, hrest⟩)
    · exact Nat.lt_irrefl _ hlt
    · simp [ih] at hrest

theorem charsPrecede_trans {as bs cs : List Char} (h : charsPrecede as bs = true)
    (h' : charsPrecede bs cs = true) : charsPrecede as cs = true := by
  induction as generalizing bs cs with
  | nil =>
    cases cs with
    | nil => cases bs <;> simp [charsPrecede] at h'
    | cons c cs => rfl
  | cons a as ih =>
    cases bs with
    | nil => simp [charsPrecede] at h
    | cons b bs =>
      cases cs with
      | nil => simp [charsPrecede] at h'
      | cons c cs =>
        rw [charsPrecede_cons] at h h' ⊢
        rcases h with hlt | ⟨rfl, hrest⟩
        · rcases h' with hlt' | ⟨rfl, -⟩
          · exact Or.inl (Nat.lt_trans hlt hlt')
          · exact Or.inl hlt
        · rcases h' with hlt' | ⟨rfl, hrest'⟩
          · exact Or.inl hlt'
          · exact Or.inr ⟨rfl, ih hrest hrest'⟩

theorem charsPrecede_connected {as bs : List Char} (h : charsPrecede as bs = false)
    (h' : charsPrecede bs as = false) : as = bs := by
  induction as generalizing bs with
  | nil =>
    cases bs with
    | nil => rfl
    | cons b bs => simp [charsPrecede] at h
  | cons a as ih =>
    cases bs with
    | nil => simp [charsPrecede] at h'
    | cons b bs =>
      rw [← Bool.not_eq_true, charsPrecede_cons, not_or, not_and] at h h'
      obtain rfl : a = b := Char.toNat_inj.mp (by omega)
      rw [ih (Bool.not_eq_true _ ▸ h.2 rfl) (Bool.not_eq_true _ ▸ h'.2 rfl)]

end Text

instance : LawfulPrecedence String where
  irrefl a := Text.charsPrecede_irrefl a.toList
  trans _ _ _ := Text.charsPrecede_trans
  connected _ _ h h' := String.toList_inj.mp (Text.charsPrecede_connected h h')

theorem Member.precedes_iff {a b : Member} : Precedence.precedes a b = true ↔
    Precedence.precedes a.entity b.entity = true ∨
      (a.entity = b.entity ∧ Precedence.precedes a.name b.name = true) := by
  simp [Precedence.precedes]

instance : LawfulPrecedence Member where
  irrefl a := by
    rw [← Bool.not_eq_true, Member.precedes_iff]
    simp [LawfulPrecedence.irrefl]
  trans a b c h h' := by
    rw [Member.precedes_iff] at h h' ⊢
    rcases h with hlt | ⟨hsame, hname⟩
    · rcases h' with hlt' | ⟨hsame', -⟩
      · exact Or.inl (LawfulPrecedence.trans _ _ _ hlt hlt')
      · exact Or.inl (hsame' ▸ hlt)
    · rcases h' with hlt' | ⟨hsame', hname'⟩
      · exact Or.inl (hsame ▸ hlt')
      · exact Or.inr ⟨hsame.trans hsame', LawfulPrecedence.trans _ _ _ hname hname'⟩
  connected a b h h' := by
    rw [← Bool.not_eq_true, Member.precedes_iff, not_or, not_and] at h h'
    obtain ⟨entity, name⟩ := a
    obtain ⟨entity', name'⟩ := b
    obtain rfl : entity = entity' := LawfulPrecedence.connected _ _
      (Bool.not_eq_true _ ▸ h.1) (Bool.not_eq_true _ ▸ h'.1)
    obtain rfl : name = name' := LawfulPrecedence.connected _ _
      (Bool.not_eq_true _ ▸ h.2 rfl) (Bool.not_eq_true _ ▸ h'.2 rfl)
    rfl

end GraphMapper
