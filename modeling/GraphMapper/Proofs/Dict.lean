import GraphMapper.Proofs.Order
import Mathlib.Data.List.Nodup
import Mathlib.Data.List.Perm.Basic

/-!
# Entries of sorted tables

What a look-up says about the entries, and the entries after an insertion. A key that is new adds one
entry wherever it is put (`insert_perm`), and a table that is filled with entries of different keys
finds exactly those (`find?_foldl_insert`). A table that is filled by insertions alone is sorted, so
it has one entry per key (`Sorted.keys_nodup`).
-/

namespace GraphMapper.Dict

variable {κ α β : Type} [DecidableEq κ]

theorem find?_eq_none_iff {d : Dict κ α} {key : κ} : find? d key = none ↔ key ∉ keys d := by
  induction d with
  | nil => simp [find?, keys]
  | cons e rest ih =>
    obtain ⟨k, v⟩ := e
    by_cases hk : k = key
    · simp [find?, keys, hk]
    · rw [find?, if_neg hk, ih]
      simp [keys, Ne.symm hk]

theorem contains_eq_false_iff {d : Dict κ α} {key : κ} :
    contains d key = false ↔ key ∉ keys d := by
  rw [contains, Option.isSome_eq_false_iff, Option.isNone_iff_eq_none, find?_eq_none_iff]

theorem mem_of_find?_eq_some {d : Dict κ α} {key : κ} {value : α}
    (h : find? d key = some value) : (key, value) ∈ d := by
  induction d with
  | nil => simp [find?] at h
  | cons e rest ih =>
    obtain ⟨k, v⟩ := e
    by_cases hk : k = key
    · rw [find?, if_pos hk, Option.some.injEq] at h
      simp [hk, h]
    · rw [find?, if_neg hk] at h
      exact List.mem_cons_of_mem _ (ih h)

/-- With one entry per key, a look-up finds exactly the entries. -/
theorem find?_eq_some_iff {d : Dict κ α} (hd : (keys d).Nodup) {key : κ} {value : α} :
    find? d key = some value ↔ (key, value) ∈ d := by
  refine ⟨mem_of_find?_eq_some, fun h => ?_⟩
  cases hf : find? d key with
  | none =>
    exact absurd (List.mem_map_of_mem h) (find?_eq_none_iff.mp hf)
  | some other =>
    have hother := mem_of_find?_eq_some hf
    have heq := List.inj_on_of_nodup_map hd hother h rfl
    rw [(Prod.mk.inj heq).2]

section Insertion

variable [Precedence κ]

/-- A new key adds one entry. -/
theorem insert_perm {d : Dict κ α} {key : κ} (h : key ∉ keys d) (value : α) :
    (insert d key value).Perm ((key, value) :: d) := by
  induction d with
  | nil => rfl
  | cons e rest ih =>
    obtain ⟨k, v⟩ := e
    have hk : k ≠ key := fun heq => h (by simp [keys, heq])
    have hrest : key ∉ keys rest := fun hmem => h (List.mem_cons_of_mem _ hmem)
    rw [insert, if_neg hk]
    split
    · rfl
    · exact ((ih hrest).cons (k, v)).trans (List.Perm.swap (key, value) (k, v) rest)

theorem keys_insert_perm {d : Dict κ α} {key : κ} (h : key ∉ keys d) (value : α) :
    (keys (insert d key value)).Perm (key :: keys d) :=
  (insert_perm h value).map Prod.fst

/-- The keys of a table and others are told apart before an insertion exactly when they are after
it. -/
theorem nodup_append_keys_insert {d : Dict κ α} {key : κ} (h : key ∉ keys d) (value : α)
    (others : List κ) :
    (others ++ keys (insert d key value)).Nodup ↔ (key :: others ++ keys d).Nodup := by
  have hkeys := (keys_insert_perm h value).append_left others
  exact hkeys.nodup_iff.trans List.perm_middle.nodup_iff

/-- A table that is filled with new keys only. -/
theorem find?_foldl_insert {entries : List (κ × α)} {d : Dict κ α} {key : κ}
    (hnodup : (entries.map Prod.fst).Nodup) :
    find? (entries.foldl (fun d e => insert d e.1 e.2) d) key =
      ((find? entries key).or (find? d key)) := by
  induction entries generalizing d with
  | nil => rfl
  | cons e rest ih =>
    obtain ⟨k, v⟩ := e
    rw [List.map_cons, List.nodup_cons] at hnodup
    rw [List.foldl_cons, ih hnodup.2, find?_insert]
    by_cases hk : k = key
    · subst hk
      have hnone : find? rest k = none := find?_eq_none_iff.mpr hnodup.1
      simp [find?, hnone]
    · simp [find?, hk]

/-- The table of entries of different keys finds what their list finds. -/
theorem find?_ofEntries {entries : List (κ × α)} (hnodup : (entries.map Prod.fst).Nodup)
    (key : κ) : find? (ofEntries entries) key = find? entries key := by
  rw [ofEntries, find?_foldl_insert hnodup]
  exact Option.or_none

/-- Insertions of new keys add their entries. -/
theorem foldl_insert_perm {entries : List (κ × α)} {d : Dict κ α}
    (hnodup : (entries.map Prod.fst ++ keys d).Nodup) :
    (entries.foldl (fun d e => insert d e.1 e.2) d).Perm (entries ++ d) := by
  induction entries generalizing d with
  | nil => rfl
  | cons e rest ih =>
    rw [List.map_cons, List.cons_append, List.nodup_cons] at hnodup
    have hnew : e.1 ∉ keys d := fun hmem => hnodup.1 (List.mem_append_right _ hmem)
    have hrest : (rest.map Prod.fst ++ keys (insert d e.1 e.2)).Nodup :=
      (nodup_append_keys_insert hnew e.2 _).mpr (List.nodup_cons.mpr hnodup)
    rw [List.foldl_cons]
    exact (ih hrest).trans (((insert_perm hnew e.2).append_left rest).trans List.perm_middle)

/-- The entries after an insertion are the new one and old ones. -/
theorem mem_insert {d : Dict κ α} {key : κ} {value : α} {entry : κ × α}
    (h : entry ∈ insert d key value) : entry = (key, value) ∨ entry ∈ d := by
  induction d with
  | nil => exact Or.inl (List.mem_singleton.mp h)
  | cons e rest ih =>
    unfold insert at h
    split at h
    · exact (List.mem_cons.mp h).imp_right (List.mem_cons_of_mem _)
    · split at h
      · exact List.mem_cons.mp h
      · rcases List.mem_cons.mp h with rfl | h
        · exact Or.inr List.mem_cons_self
        · exact (ih h).imp_right (List.mem_cons_of_mem _)

/-- The entries of a table are among those that were put in. -/
theorem mem_of_mem_ofEntries {entries : List (κ × α)} {entry : κ × α}
    (h : entry ∈ ofEntries entries) : entry ∈ entries := by
  have hfold : ∀ d : Dict κ α, entry ∈ entries.foldl (fun d e => insert d e.1 e.2) d →
      entry ∈ entries ∨ entry ∈ d := by
    clear h
    induction entries with
    | nil => exact fun _ h => Or.inr h
    | cons e rest ih =>
      intro d h
      rcases ih _ h with hrest | hfirst
      · exact Or.inl (List.mem_cons_of_mem e hrest)
      · refine (mem_insert hfirst).imp_left ?_
        rintro rfl
        exact List.mem_cons_self
  exact (hfold [] h).resolve_right List.not_mem_nil

theorem mem_keys_insert {d : Dict κ α} {key other : κ} {value : α} :
    other ∈ keys (insert d key value) ↔ other = key ∨ other ∈ keys d := by
  rw [← not_iff_not, not_or, ← find?_eq_none_iff, ← find?_eq_none_iff, find?_insert]
  by_cases heq : key = other
  · simp [heq]
  · simp [heq, Ne.symm heq]

theorem mem_keys_ofEntries {entries : List (κ × α)} {key : κ} :
    key ∈ keys (ofEntries entries) ↔ key ∈ keys entries := by
  have hfold : ∀ d : Dict κ α, key ∈ keys (entries.foldl (fun d e => insert d e.1 e.2) d) ↔
      key ∈ keys d ∨ key ∈ keys entries := by
    induction entries with
    | nil => simp [keys]
    | cons e rest ih =>
      intro d
      have hcons : key ∈ keys (e :: rest) ↔ key = e.1 ∨ key ∈ keys rest := List.mem_cons
      rw [List.foldl_cons, ih, mem_keys_insert, hcons, or_comm (a := key = e.1), or_assoc]
  rw [ofEntries, hfold]
  simp [keys]

end Insertion

/-! ## Changing all values -/

/-- The table with another value at every key. -/
def mapValues (f : α → β) (d : Dict κ α) : Dict κ β := d.map fun e => (e.1, f e.2)

omit [DecidableEq κ] in
theorem keys_mapValues (f : α → β) (d : Dict κ α) : keys (mapValues f d) = keys d := by
  rw [keys, keys, mapValues, List.map_map]
  rfl

theorem find?_mapValues (f : α → β) (d : Dict κ α) (key : κ) :
    find? (mapValues f d) key = (find? d key).map f := by
  induction d with
  | nil => rfl
  | cons e rest ih =>
    obtain ⟨k, v⟩ := e
    change (if k = key then some (f v) else find? (mapValues f rest) key) = _
    rw [ih, find?]
    split <;> rfl

theorem insert_mapValues [Precedence κ] (f : α → β) (d : Dict κ α) (key : κ) (value : α) :
    insert (mapValues f d) key (f value) = mapValues f (insert d key value) := by
  induction d with
  | nil => rfl
  | cons e rest ih =>
    obtain ⟨k, v⟩ := e
    change (if k = key then (key, f value) :: mapValues f rest
      else if Precedence.precedes key k then (key, f value) :: (k, f v) :: mapValues f rest
      else (k, f v) :: insert (mapValues f rest) key (f value)) = _
    rw [ih, insert]
    split
    · rfl
    · split <;> rfl

theorem mapValues_ofEntries [Precedence κ] (f : α → β) (entries : List (κ × α)) :
    mapValues f (ofEntries entries) = ofEntries (entries.map fun e => (e.1, f e.2)) := by
  have hfold : ∀ d : Dict κ α, mapValues f (entries.foldl (fun d e => insert d e.1 e.2) d) =
      (entries.map fun e => (e.1, f e.2)).foldl (fun d e => insert d e.1 e.2) (mapValues f d) := by
    induction entries with
    | nil => exact fun _ => rfl
    | cons e rest ih =>
      intro d
      rw [List.foldl_cons, ih, List.map_cons, List.foldl_cons, insert_mapValues]
  exact hfold []

/-! ## Sorted tables -/

section Order

omit [DecidableEq κ]

variable [Precedence κ] [LawfulPrecedence κ]

/-- The entries stand in key order. -/
def Sorted (d : Dict κ α) : Prop := d.Pairwise fun a b => Precedence.precedes a.1 b.1 = true

theorem Sorted.keys_nodup {d : Dict κ α} (h : d.Sorted) : (keys d).Nodup := by
  refine List.pairwise_map.mpr (h.imp ?_)
  intro a b hlt heq
  rw [heq, LawfulPrecedence.irrefl] at hlt
  cases hlt

/-- An insertion keeps a table sorted. -/
theorem Sorted.insert [DecidableEq κ] {d : Dict κ α} (h : d.Sorted) (key : κ) (value : α) :
    (insert d key value).Sorted := by
  induction d with
  | nil => exact List.pairwise_singleton _ _
  | cons e rest ih =>
    obtain ⟨hfirst, hrest⟩ := List.pairwise_cons.mp h
    unfold Dict.insert
    split
    · next heq => exact List.pairwise_cons.mpr ⟨heq ▸ hfirst, hrest⟩
    · next hne =>
      split
      · next hlt =>
        refine List.pairwise_cons.mpr ⟨List.forall_mem_cons.mpr ⟨hlt, fun other hother => ?_⟩, h⟩
        exact LawfulPrecedence.trans _ _ _ hlt (hfirst other hother)
      · next hge =>
        refine List.pairwise_cons.mpr ⟨fun other hother => ?_, ih hrest⟩
        rcases mem_insert hother with rfl | hother
        · by_contra hnot
          rw [Bool.not_eq_true] at hge hnot
          exact hne (LawfulPrecedence.connected _ _ hnot hge)
        · exact hfirst other hother

/-- A sorted table is known by its entries. -/
theorem Sorted.eq_of_perm {d d' : Dict κ α} (h : d.Sorted) (h' : d'.Sorted) (hperm : d.Perm d') :
    d = d' := by
  refine List.Perm.eq_of_pairwise ?_ h h' hperm
  intro a b _ _ hab hba
  rw [LawfulPrecedence.asymm hab] at hba
  cases hba

/-- Sorted tables with the same look-ups are the same. -/
theorem Sorted.eq_of_find? [DecidableEq κ] {d d' : Dict κ α} (h : d.Sorted) (h' : d'.Sorted)
    (hfind : ∀ key, find? d key = find? d' key) : d = d' := by
  have hnodup : ∀ {e : Dict κ α}, e.Sorted → e.Nodup := fun he => he.keys_nodup.of_map _
  refine h.eq_of_perm h' ((List.perm_ext_iff_of_nodup (hnodup h) (hnodup h')).mpr fun entry => ?_)
  obtain ⟨key, value⟩ := entry
  rw [← find?_eq_some_iff h.keys_nodup, ← find?_eq_some_iff h'.keys_nodup, hfind]

/-- Insertions at different keys may change places. -/
theorem Sorted.insert_comm [DecidableEq κ] {d : Dict κ α} (h : d.Sorted) {key other : κ}
    (hne : key ≠ other) (value value' : α) :
    Dict.insert (Dict.insert d key value) other value' =
      Dict.insert (Dict.insert d other value') key value := by
  refine ((h.insert key value).insert other value').eq_of_find?
    ((h.insert other value').insert key value) fun k => ?_
  rw [find?_insert, find?_insert, find?_insert, find?_insert]
  by_cases hkey : key = k
  · simp [hkey, hkey ▸ hne.symm]
  · simp [hkey]

theorem ofEntries_sorted [DecidableEq κ] (entries : List (κ × α)) : (ofEntries entries).Sorted := by
  have hfold : ∀ d : Dict κ α, d.Sorted →
      (entries.foldl (fun d e => Dict.insert d e.1 e.2) d).Sorted := by
    induction entries with
    | nil => exact fun _ h => h
    | cons e rest ih => exact fun _ h => ih _ (h.insert e.1 e.2)
  exact hfold [] .nil

omit [LawfulPrecedence κ] in
/-- Entries of different keys are all in the table, and nothing else is. -/
theorem ofEntries_perm [DecidableEq κ] {entries : List (κ × α)}
    (hnodup : (entries.map Prod.fst).Nodup) : (ofEntries entries).Perm entries := by
  have hkeys : (entries.map Prod.fst ++ keys ([] : Dict κ α)).Nodup := by simpa [keys] using hnodup
  have hfill := foldl_insert_perm hkeys
  rwa [List.append_nil] at hfill

/-- Entries of different keys give one table in whatever order they are put in. -/
theorem ofEntries_eq_of_perm [DecidableEq κ] {entries entries' : List (κ × α)}
    (hnodup : (entries.map Prod.fst).Nodup) (hperm : entries.Perm entries') :
    ofEntries entries = ofEntries entries' := by
  have hnodup' := ((hperm.map Prod.fst).nodup_iff).mp hnodup
  exact (ofEntries_sorted entries).eq_of_perm (ofEntries_sorted entries')
    ((ofEntries_perm hnodup).trans (hperm.trans (ofEntries_perm hnodup').symm))

end Order

end GraphMapper.Dict

namespace GraphMapper

/-! ## Sorted names -/

/-- A sorted set of names is filled like a table without values. -/
theorem map_insertSorted (s : String) (names : List String) :
    ((insertSorted s names).map fun n => (n, ())) =
      Dict.insert (names.map fun n => (n, ())) s () := by
  induction names with
  | nil => rfl
  | cons t rest ih =>
    rw [insertSorted, List.map_cons, Dict.insert]
    split
    · next heq => simp [heq]
    · split
      · next hlt => simp [Precedence.precedes, hlt]
      · next hge => simp [Precedence.precedes, hge, ih]

theorem sortDistinct_nodup (names : List String) : (sortDistinct names).Nodup := by
  have hsorted : Dict.Sorted ((sortDistinct names).map fun n => (n, ())) := by
    induction names with
    | nil => exact .nil
    | cons n rest ih =>
      have hstep : sortDistinct (n :: rest) = insertSorted n (sortDistinct rest) := rfl
      rw [hstep, map_insertSorted]
      exact ih.insert n ()
  simpa [Dict.keys, Function.comp_def] using hsorted.keys_nodup

end GraphMapper
