import Mathlib.Data.List.Forall2

/-!
# Outcomes of runs that can fail

A run over `Except` that ends well has ended well at each of its steps. The lemmas take such a run
apart (`bind_eq_ok`, `mapM_eq_ok_iff`) and carry an invariant through a whole one
(`foldlM_preserves`), so that the definitions of the library are opened one step at a time.
-/

namespace GraphMapper.Outcome

variable {ε α β σ : Type}

/-- A sequence of two steps ends well exactly if the first does and the second does after it. -/
theorem bind_eq_ok {x : Except ε α} {f : α → Except ε β} {b : β} :
    (x >>= f) = .ok b ↔ ∃ a, x = .ok a ∧ f a = .ok b := by
  cases x with
  | error e => simp [bind, Except.bind]
  | ok a => simp [bind, Except.bind]

/-- A sequence of two steps ends well if the first does and then the second does. -/
theorem exists_bind_iff {x : Except ε α} {f : α → Except ε β} :
    (∃ b, x >>= f = .ok b) ↔ ∃ a, x = .ok a ∧ ∃ b, f a = .ok b := by
  simp only [bind_eq_ok]
  exact exists_comm.trans (exists_congr fun _ => exists_and_left)

@[simp] theorem pure_eq_ok {a b : α} : (pure a : Except ε α) = .ok b ↔ a = b := by
  simp [pure, Except.pure]

/-- A sequence of two steps fails in its first step or in its second. -/
theorem bind_eq_error {x : Except ε α} {f : α → Except ε β} {e : ε} :
    (x >>= f) = .error e ↔ x = .error e ∨ ∃ a, x = .ok a ∧ f a = .error e := by
  cases x <;> simp [bind, Except.bind]

theorem exists_of_isOk {x : Except ε α} (h : x.isOk = true) : ∃ a, x = .ok a := by
  cases x with
  | error e => cases h
  | ok a => exact ⟨a, rfl⟩

theorem eq_ok_of_toOption {x : Except ε α} {a : α} (h : x.toOption = some a) : x = .ok a := by
  cases x with
  | error e => cases h
  | ok b => exact congrArg Except.ok (Option.some.inj h)

/-- A check before a run. -/
theorem check_bind_eq_ok {x : Except ε Unit} {y : Except ε α} {b : α} :
    (x >>= fun _ => y) = .ok b ↔ x = .ok () ∧ y = .ok b := by
  rw [bind_eq_ok]
  exact ⟨fun ⟨_, hx, hy⟩ => ⟨hx, hy⟩, fun ⟨hx, hy⟩ => ⟨(), hx, hy⟩⟩

/-- A guard that ends well has not refused. -/
theorem guard_eq_ok {p : Prop} [Decidable p] {e : ε} {x : Except ε α} {b : α} :
    (if p then throw e else x) = .ok b ↔ ¬ p ∧ x = .ok b := by
  by_cases hp : p <;> simp [hp, throw, throwThe, MonadExceptOf.throw]

theorem exists_of_forall₂ {R : α → β → Prop} {as : List α} {bs : List β}
    (h : List.Forall₂ R as bs) {a : α} (ha : a ∈ as) : ∃ b ∈ bs, R a b := by
  induction h with
  | nil => simp at ha
  | cons hab _ ih =>
    rw [List.mem_cons] at ha
    rcases ha with rfl | ha
    · exact ⟨_, List.mem_cons_self, hab⟩
    · obtain ⟨b, hb, hab⟩ := ih ha
      exact ⟨b, List.mem_cons_of_mem _ hb, hab⟩

theorem mapM_eq_ok_iff {f : α → Except ε β} {as : List α} {bs : List β} :
    as.mapM f = .ok bs ↔ List.Forall₂ (fun a b => f a = .ok b) as bs := by
  induction as generalizing bs with
  | nil => cases bs <;> simp
  | cons a rest ih =>
    rw [List.mapM_cons, bind_eq_ok]
    constructor
    · rintro ⟨b, hb, h⟩
      obtain ⟨others, hrest, h⟩ := bind_eq_ok.mp h
      obtain rfl := pure_eq_ok.mp h
      exact .cons hb (ih.mp hrest)
    · rintro (_ | ⟨hb, hrest⟩)
      exact ⟨_, hb, bind_eq_ok.mpr ⟨_, ih.mpr hrest, rfl⟩⟩

/-- The results of a run over a list are the results of its members. -/
theorem mem_mapM_iff {f : α → Except ε β} {as : List α} {bs : List β}
    (h : as.mapM f = .ok bs) {b : β} : b ∈ bs ↔ ∃ a ∈ as, f a = .ok b := by
  induction mapM_eq_ok_iff.mp h with
  | nil => simp
  | cons hb hrest ih =>
    rw [List.mem_cons, ih (mapM_eq_ok_iff.mpr hrest)]
    constructor
    · rintro (rfl | ⟨a, ha, hab⟩)
      · exact ⟨_, List.mem_cons_self, hb⟩
      · exact ⟨a, List.mem_cons_of_mem _ ha, hab⟩
    · rintro ⟨a, ha, hab⟩
      rw [List.mem_cons] at ha
      rcases ha with rfl | ha
      · exact Or.inl (Except.ok.inj (hab.symm.trans hb))
      · exact Or.inr ⟨a, ha, hab⟩

theorem exists_of_mapM {f : α → Except ε β} {as : List α} {bs : List β}
    (h : as.mapM f = .ok bs) {a : α} (ha : a ∈ as) : ∃ b ∈ bs, f a = .ok b :=
  exists_of_forall₂ (mapM_eq_ok_iff.mp h) ha

/-- A run over a list ends well when it does at every member. -/
theorem exists_mapM_iff {f : α → Except ε β} {as : List α} :
    (∃ bs, as.mapM f = .ok bs) ↔ ∀ a ∈ as, ∃ b, f a = .ok b := by
  induction as with
  | nil => exact ⟨fun _ a ha => absurd ha List.not_mem_nil, fun _ => ⟨[], rfl⟩⟩
  | cons a rest ih =>
    rw [List.forall_mem_cons, ← ih]
    constructor
    · rintro ⟨bs, h⟩
      obtain ⟨b, others, hb, hrest, -⟩ := List.forall₂_cons_left_iff.mp (mapM_eq_ok_iff.mp h)
      exact ⟨⟨b, hb⟩, others, mapM_eq_ok_iff.mpr hrest⟩
    · rintro ⟨⟨b, hb⟩, others, hrest⟩
      exact ⟨b :: others, mapM_eq_ok_iff.mpr (.cons hb (mapM_eq_ok_iff.mp hrest))⟩

/-- A view of the results that the members already have. -/
theorem map_of_mapM {γ : Type} {f : α → Except ε β} {view : β → γ} {view' : α → γ}
    {as : List α} {bs : List β} (hview : ∀ a ∈ as, ∀ b, f a = .ok b → view b = view' a)
    (h : as.mapM f = .ok bs) : bs.map view = as.map view' := by
  induction mapM_eq_ok_iff.mp h with
  | nil => rfl
  | cons hb hrest ih =>
    rw [List.forall_mem_cons] at hview
    rw [List.map_cons, List.map_cons, hview.1 _ hb, ih hview.2 (mapM_eq_ok_iff.mpr hrest)]

/-! ## Runs that fail -/

/-- If the run fails, its error is such. -/
def FailsWith (P : ε → Prop) (x : Except ε α) : Prop := ∀ e, x = .error e → P e

namespace FailsWith

variable {P : ε → Prop}

theorem ok (a : α) : FailsWith P (.ok a) := fun _ h => nomatch h

theorem error {e : ε} (h : P e) : FailsWith P (.error e : Except ε α) :=
  fun _ he => Except.error.inj he ▸ h

theorem mono {Q : ε → Prop} {x : Except ε α} (hx : FailsWith P x) (h : ∀ e, P e → Q e) :
    FailsWith Q x := fun e he => h e (hx e he)

/-- A sequence fails in its first step or in its second. -/
theorem bind {x : Except ε α} {f : α → Except ε β} (hx : FailsWith P x)
    (hf : ∀ a, x = .ok a → FailsWith P (f a)) : FailsWith P (x >>= f) := by
  cases x with
  | error e => exact .error (hx e rfl)
  | ok a => exact hf a rfl

/-- A run over a list fails at a member. -/
theorem mapM {f : α → Except ε β} {as : List α} (h : ∀ a ∈ as, FailsWith P (f a)) :
    FailsWith P (as.mapM f) := by
  induction as with
  | nil => exact .ok []
  | cons a rest ih =>
    obtain ⟨ha, hrest⟩ := List.forall_mem_cons.mp h
    rw [List.mapM_cons]
    exact .bind ha fun b _ => .bind (ih hrest) fun bs _ => .ok (b :: bs)

end FailsWith

/-- A run over a list fails where its step fails after it has not failed before. -/
theorem foldlM_eq_error_iff {f : σ → α → Except ε σ} {as : List α} {s : σ} {e : ε} :
    as.foldlM f s = .error e ↔ ∃ done a more t, as = done ++ a :: more ∧
      done.foldlM f s = .ok t ∧ f t a = .error e := by
  induction as generalizing s with
  | nil => simp [pure, Except.pure]
  | cons a rest ih =>
    rw [List.foldlM_cons, bind_eq_error]
    constructor
    · rintro (hfirst | ⟨t, ht, hrest⟩)
      · exact ⟨[], a, rest, s, rfl, rfl, hfirst⟩
      · obtain ⟨done, b, more, u, rfl, hdone, hb⟩ := ih.mp hrest
        refine ⟨a :: done, b, more, u, rfl, ?_, hb⟩
        rw [List.foldlM_cons]
        exact bind_eq_ok.mpr ⟨t, ht, hdone⟩
    · rintro ⟨done, b, more, u, heq, hdone, hb⟩
      cases done with
      | nil =>
        obtain ⟨rfl, rfl⟩ := List.cons.inj heq
        exact Or.inl (pure_eq_ok.mp hdone ▸ hb)
      | cons c done =>
        obtain ⟨rfl, rfl⟩ := List.cons.inj heq
        rw [List.foldlM_cons] at hdone
        obtain ⟨t, ht, hdone⟩ := bind_eq_ok.mp hdone
        exact Or.inr ⟨t, ht, ih.mpr ⟨done, b, more, u, rfl, hdone, hb⟩⟩

/-! ## Runs over changed data -/

theorem map_bind {γ : Type} (x : Except ε α) (f : α → Except ε β) (view : β → γ) :
    (x >>= f).map view = x >>= fun a => (f a).map view := by
  cases x <;> rfl

theorem bind_map {γ : Type} (x : Except ε α) (view : α → β) (f : β → Except ε γ) :
    x.map view >>= f = x >>= fun a => f (view a) := by
  cases x <;> rfl

/-- A run over changed members gives changed results. -/
theorem mapM_map {α' β' : Type} {change : α → α'} {view : β → β'} {f : α → Except ε β}
    {f' : α' → Except ε β'} {as : List α} (h : ∀ a ∈ as, f' (change a) = (f a).map view) :
    (as.map change).mapM f' = (as.mapM f).map (List.map view) := by
  induction as with
  | nil => rfl
  | cons a rest ih =>
    rw [List.forall_mem_cons] at h
    rw [List.map_cons, List.mapM_cons, List.mapM_cons, h.1, ih h.2, bind_map, map_bind]
    congr 1
    funext b
    rw [bind_map, map_bind]
    rfl

/-- A run that starts from a changed state, over changed members, ends in a changed state. -/
theorem foldlM_map {σ' α' : Type} {change : α → α'} {view : σ → σ'} {f : σ → α → Except ε σ}
    {f' : σ' → α' → Except ε σ'} {as : List α}
    (h : ∀ s, ∀ a ∈ as, f' (view s) (change a) = (f s a).map view) (s : σ) :
    (as.map change).foldlM f' (view s) = (as.foldlM f s).map view := by
  induction as generalizing s with
  | nil => rfl
  | cons a rest ih =>
    have hrest := ih fun s b hb => h s b (List.mem_cons_of_mem a hb)
    rw [List.map_cons, List.foldlM_cons, List.foldlM_cons, h s a List.mem_cons_self, bind_map,
      map_bind]
    congr 1
    funext t
    exact hrest t

/-- Two runs fail with the same error, or both end well with results that belong together. -/
inductive Agree (R : α → β → Prop) : Except ε α → Except ε β → Prop
  | error (e : ε) : Agree R (.error e) (.error e)
  | ok {a : α} {b : β} (related : R a b) : Agree R (.ok a) (.ok b)

/-- Runs whose results look the same agree in what follows from the look. -/
theorem Agree.of_map_eq {γ : Type} {R : α → β → Prop} {view : α → γ} {view' : β → γ}
    (hview : ∀ a b, view a = view' b → R a b) {x : Except ε α} {y : Except ε β}
    (h : x.map view = y.map view') : Agree R x y := by
  cases x with
  | error e =>
    cases y with
    | error e' => exact Except.error.inj h ▸ .error e
    | ok b => cases h
  | ok a =>
    cases y with
    | error e' => cases h
    | ok b => exact .ok (hview a b (Except.ok.inj h))

/-- What every step of a run keeps, the whole run keeps. -/
theorem foldlM_preserves {f : σ → α → Except ε σ} {P : σ → Prop} {as : List α} {s s' : σ}
    (hstep : ∀ s a s', a ∈ as → P s → f s a = .ok s' → P s')
    (hs : P s) (h : as.foldlM f s = .ok s') : P s' := by
  induction as generalizing s with
  | nil => exact pure_eq_ok.mp h ▸ hs
  | cons a rest ih =>
    rw [List.foldlM_cons] at h
    obtain ⟨t, ht, hrest⟩ := bind_eq_ok.mp h
    have hP : P t := hstep s a t List.mem_cons_self hs ht
    exact ih (fun s b s' hb => hstep s b s' (List.mem_cons_of_mem a hb)) hP hrest

end GraphMapper.Outcome
