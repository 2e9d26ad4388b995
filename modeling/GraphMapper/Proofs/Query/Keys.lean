import GraphMapper.Proofs.Query.Determined
import GraphMapper.Proofs.Query.Legal

/-!
# Keys of results

The result of a query is an object under keys from four sources: projected paths, included relations,
the paths of groups, and the paths of totals with the suffix of their function. Projected paths and
inclusions are each kept free of repetitions, groups and totals are not, and no source is compared with
another one. `Query.KeysApart` is what that leaves to the caller, and it is exactly what makes the keys
pairwise different (`Mapper.resultKeys_nodup_iff`).

A suffix holds no underscore, so the key of a total tells the path and the function
(`Aql.Function.resultKey_inj`).
-/

namespace GraphMapper

open Outcome Aql

/-! ## Keys of totals -/

namespace Aql.Function

theorem suffix_injective {f f' : Function} (h : f.suffix = f'.suffix) : f = f' := by
  cases f <;> cases f' <;> simp_all [suffix]

theorem underscore_not_mem_suffix (f : Function) : '_' ∉ f.suffix.toList := by
  cases f <;> decide

/-- Read from its end, a key begins with its suffix, up to the first underscore. -/
theorem takeWhile_resultKey (f : Function) (path : String) :
    (f.resultKey path).toList.reverse.takeWhile (· != '_') = f.suffix.toList.reverse := by
  have hsuffix : ∀ c ∈ f.suffix.toList.reverse, (c != '_') = true := by
    intro c hc
    have hne : c ≠ '_' := fun heq =>
      f.underscore_not_mem_suffix (heq ▸ List.mem_reverse.mp hc)
    exact bne_iff_ne.mpr hne
  have hkey : (f.resultKey path).toList.reverse =
      f.suffix.toList.reverse ++ '_' :: '_' :: path.toList.reverse := by
    simp [resultKey]
  rw [hkey, List.takeWhile_append_of_pos hsuffix, List.takeWhile_cons_of_neg (by decide),
    List.append_nil]

theorem resultKey_inj {f f' : Function} {path path' : String} :
    f.resultKey path = f'.resultKey path' ↔ path = path' ∧ f = f' := by
  constructor
  · intro h
    have hread := congrArg (fun key : String => key.toList.reverse.takeWhile (· != '_')) h
    simp only [takeWhile_resultKey] at hread
    obtain rfl : f = f' :=
      suffix_injective (String.toList_inj.mp (List.reverse_injective hread))
    refine ⟨?_, rfl⟩
    simpa [resultKey, String.append_assoc] using h
  · rintro ⟨rfl, rfl⟩
    rfl

end Aql.Function

/-! ## Keys of results -/

/-- The keys of the object that a result is or that is merged into the document. -/
def Aql.Result.keys : Result → List String
  | document => []
  | merged entries => entries.map (·.1)
  | object entries => entries.map (·.1)

/-- The keys in the result of a reading statement. -/
def Aql.Command.resultKeys : Command → List String
  | read _ _ result => result.keys
  | _ => []

/-- Nothing in the result of a query stands under the key of something else. -/
structure Query.KeysApart (q : Query) : Prop where
  /-- No path is grouped by twice. -/
  groups : ∀ a ∈ q.aggregations, a.groupPaths.Nodup
  /-- No function is applied to a path twice. -/
  totals : (q.aggregations.map fun a => (a.field.path, Function.ofName? a.function)).Nodup
  /-- No path that is grouped by is the key of a total. -/
  apart : ∀ a ∈ q.aggregations, ∀ b ∈ q.aggregations, ∀ f ∈ Function.ofName? b.function,
    f.resultKey b.field.path ∉ a.groupPaths
  /-- No relation is both included and projected. -/
  inclusions : ∀ i ∈ q.inclusions, ∀ s ∈ q.stages, ∀ f ∈ s.projected, f.path ≠ i.relationship

theorem map_fst_mapIdx {α β : Type} (key : α → String) (value : Nat → α → β) (as : List α) :
    (as.mapIdx fun n a => (key a, value n a)).map (·.1) = as.map key := by
  induction as generalizing value with
  | nil => rfl
  | cons a rest ih => simp [List.mapIdx_cons, ih]

namespace Outline

variable {o : Outline} {q : Query} {columns : List Expr}

/-- The key of a total. -/
def totalKey (t : Aggregation × Aql.Function) : String := t.2.resultKey t.1.field.path

theorem keys_totals (h : o.totals ≠ []) :
    (o.result q columns).keys = o.groups.map (·.path) ++ o.totals.map totalKey := by
  have hsome : (!o.totals.isEmpty) = true := by simpa using h
  rw [result, if_pos hsome, Result.keys, List.map_append]
  exact congrArg₂ (· ++ ·) (map_fst_mapIdx (fun g : FieldPath => g.path) _ _)
    (map_fst_mapIdx totalKey _ _)

theorem keys_documents (h : o.totals = []) :
    (o.result q columns).keys =
      o.projection.map (·.path) ++ q.inclusions.map (·.relationship) := by
  have hentries : q.includedEntries.map (·.1) = q.inclusions.map (·.relationship) :=
    map_fst_mapIdx (fun i : Inclusion => i.relationship) _ _
  rw [result, h]
  cases hprojection : o.projection with
  | nil =>
    cases hinclusions : q.inclusions with
    | nil => simp [Result.keys]
    | cons i rest => simp [Result.keys, hentries, hinclusions]
  | cons f rest => simp [Result.keys, hentries, Function.comp_def]

/-- The totals of an outline have the functions that their aggregations name. -/
theorem totals_named (h : ofQuery q = .ok o) :
    ∀ t ∈ o.totals, Function.ofName? t.1.function = some t.2 := by
  refine foldlM_preserves (P := fun o => ∀ t ∈ o.totals, Function.ofName? t.1.function = some t.2)
    (fun o s o' hs ho hstep => ?_) (by simp) (addStages_of_ofQuery h)
  cases s with
  | limit count offset => exact addStage_limit hstep ▸ ho
  | aggregate a =>
    obtain ⟨function, hfunction, rfl⟩ := addStage_aggregate hstep
    refine List.forall_mem_append.mpr ⟨ho, List.forall_mem_singleton.mpr ?_⟩
    unfold Function.ofName at hfunction
    split at hfunction
    · next f hf => rw [hf, Except.ok.inj hfunction]
    · cases hfunction
  | _ => exact Except.ok.inj hstep ▸ ho

end Outline

/-! ## Keys of queries -/

theorem Query.mem_inclusions {q : Query} {i : Inclusion} :
    i ∈ q.inclusions ↔ .include i ∈ q.stages := by
  rw [inclusions, List.mem_filterMap]
  constructor
  · rintro ⟨s, hs, hi⟩
    cases s with
    | «include» j => exact Option.some.inj hi ▸ hs
    | _ => cases hi
  · exact fun h => ⟨_, h, rfl⟩

namespace Query

variable {q : Query} {o : Outline} (ho : Outline.ofQuery q = .ok o) {columns : List Expr}
include ho

/-- The key of a total belongs to an aggregation and the function that it names. -/
theorem mem_totalKeys {key : String} : key ∈ o.totals.map Outline.totalKey ↔
    ∃ a ∈ q.aggregations, ∃ f ∈ Function.ofName? a.function, f.resultKey a.field.path = key := by
  rw [← Outline.aggregations_ofQuery ho, Outline.aggregations]
  constructor
  · intro hkey
    obtain ⟨t, ht, rfl⟩ := List.mem_map.mp hkey
    exact ⟨t.1, List.mem_map_of_mem ht, t.2, Outline.totals_named ho t ht, rfl⟩
  · rintro ⟨a, ha, f, hf, rfl⟩
    obtain ⟨t, ht, rfl⟩ := List.mem_map.mp ha
    obtain rfl : t.2 = f := Option.some.inj ((Outline.totals_named ho t ht).symm.trans hf)
    exact List.mem_map_of_mem ht

/-- The keys of totals are different where paths or functions are. -/
theorem totalKeys_nodup_iff : (o.totals.map Outline.totalKey).Nodup ↔
    (q.aggregations.map fun a => (a.field.path, Function.ofName? a.function)).Nodup := by
  have hviews : (q.aggregations.map fun a => (a.field.path, Function.ofName? a.function)) =
      o.totals.map fun t => (t.1.field.path, some t.2) := by
    rw [← Outline.aggregations_ofQuery ho, Outline.aggregations, List.map_map]
    refine List.map_congr_left fun t ht => ?_
    rw [Function.comp_apply, Outline.totals_named ho t ht]
  rw [hviews, List.Nodup, List.Nodup, List.pairwise_map, List.pairwise_map]
  simp [Outline.totalKey, Function.resultKey_inj]

/-- Where there are totals, all keys are those of groups and totals. -/
theorem keysApart_of_totals (hsome : o.totals ≠ []) :
    (o.result q columns).keys.Nodup ↔ q.KeysApart := by
  obtain ⟨hrun, halone⟩ := Outline.ofQuery_eq_ok_iff.mp ho
  have haggregations := Outline.aggregations_ofQuery ho
  have halike : ∀ a ∈ q.aggregations, ∀ b ∈ q.aggregations, a.groupPaths = b.groupPaths :=
    Outline.uniform_iff.mp (Outline.exists_addStages_iff.mp ⟨o, hrun⟩).2
  obtain ⟨first, hfirst, hgroups⟩ : ∃ first ∈ q.aggregations,
      o.groups.map (·.path) = first.groupPaths := by
    obtain ⟨t, rest, htotals⟩ := List.exists_cons_of_ne_nil hsome
    refine ⟨t.1, ?_, by rw [Outline.groups, htotals, Aggregation.groupPaths]⟩
    rw [← haggregations, Outline.aggregations, htotals]
    exact List.mem_cons_self
  have hinclusions : q.inclusions = [] := by
    have hincluded := (halone (mt Outline.aggregations_eq_nil_iff.mp hsome)).2
    have hnone := mt (Outline.addStages_extends hrun).2.1.mpr (by simp [hincluded])
    rw [List.eq_nil_iff_forall_not_mem]
    intro i hi
    exact hnone (Or.inr ⟨i, mem_inclusions.mp hi⟩)
  rw [Outline.keys_totals hsome, hgroups, List.nodup_append, totalKeys_nodup_iff ho]
  constructor
  · rintro ⟨hnodup, htotals, happart⟩
    constructor
    case groups => exact fun a ha => halike first hfirst a ha ▸ hnodup
    case totals => exact htotals
    case apart =>
      intro a ha b hb f hf hmem
      rw [← halike first hfirst a ha] at hmem
      exact happart _ hmem _ ((mem_totalKeys ho).mpr ⟨b, hb, f, hf, rfl⟩) rfl
    case inclusions => simp [hinclusions]
  · rintro ⟨hnodup, htotals, happart, -⟩
    refine ⟨hnodup first hfirst, htotals, ?_⟩
    rintro path hpath key hkey rfl
    obtain ⟨b, hb, f, hf, hsame⟩ := (mem_totalKeys ho).mp hkey
    exact happart first hfirst b hb f hf (hsame ▸ hpath)

/-- Where there are no totals, all keys are those of projected paths and inclusions. -/
theorem keysApart_of_documents (hnone : o.totals = [])
    (hincluded : (q.inclusions.map (·.relationship)).Nodup) :
    (o.result q columns).keys.Nodup ↔ q.KeysApart := by
  have haggregations : q.aggregations = [] := by
    rw [← Outline.aggregations_ofQuery ho, Outline.aggregations_eq_nil_iff, hnone]
  have hprojection := Outline.projection_ofQuery ho
  have hpaths : (o.projection.map (·.path)).Nodup := by
    rw [hprojection]
    exact Outline.addFields_paths_nodup List.nodup_nil
  rw [Outline.keys_documents hnone, List.nodup_append]
  constructor
  · rintro ⟨-, -, happart⟩
    refine ⟨by simp [haggregations], by simp [haggregations], by simp [haggregations], ?_⟩
    intro i hi s hs f hf
    obtain ⟨g, hg, hsame⟩ : ∃ g ∈ o.projection, g.path = f.path := by
      rw [hprojection]
      exact Outline.exists_path_addFields (List.mem_flatMap.mpr ⟨s, hs, hf⟩)
    exact hsame ▸ happart _ (List.mem_map_of_mem hg) _ (List.mem_map_of_mem hi)
  · rintro ⟨-, -, -, happart⟩
    refine ⟨hpaths, hincluded, ?_⟩
    intro path hpath name hname
    obtain ⟨f, hf, rfl⟩ := List.mem_map.mp hpath
    obtain ⟨i, hi, rfl⟩ := List.mem_map.mp hname
    rw [hprojection] at hf
    obtain ⟨s, hs, hf⟩ :=
      List.mem_flatMap.mp ((Outline.mem_addFields hf).resolve_left List.not_mem_nil)
    exact happart i hi s hs f hf

end Query

/-- The keys in the result of a built query are pairwise different exactly if no path is grouped by
twice, no function is applied to a path twice, no path that is grouped by reads like the key of a total,
and no included relation is projected. -/
theorem Mapper.resultKeys_nodup_iff {m m' : Mapper} {entity : String} {ops : List Operation}
    {q : Query} (hq : m.query entity ops = .ok q) {st : Statement} (h : m'.statement q = .ok st) :
    st.command.resultKeys.Nodup ↔ q.KeysApart := by
  obtain ⟨d, hd, -, rfl⟩ := query_built hq
  obtain ⟨_, o, matching, inclusions, pages, rfl, ho, -, -, -, hcommand⟩ := statement_eq_ok h
  rw [hcommand, Command.resultKeys]
  by_cases htotals : o.totals = []
  · exact Query.keysApart_of_documents ho htotals hd.inclusions_nodup
  · exact Query.keysApart_of_totals ho htotals

/-- Operations whose statement has these keys. -/
theorem Mapper.exists_of_resultKeys (m : Mapper) (entity : String) (ops : List Operation)
    (keys : List String) (h : ((m.query entity ops >>= m.statement).toOption.map
      fun st => st.command.resultKeys) = some keys) :
    ∃ q st, m.query entity ops = .ok q ∧ m.statement q = .ok st ∧ st.command.resultKeys = keys := by
  obtain ⟨st, hst, hkeys⟩ := Option.map_eq_some_iff.mp h
  obtain ⟨q, hq, hst⟩ := bind_eq_ok.mp (eq_ok_of_toOption hst)
  exact ⟨q, st, hq, hst, hkeys⟩

/-- Accounts counted and their greatest key, for groups of two paths. -/
theorem Mapper.resultKeys_nodup_iff_counted :
    ∃ q st, Bank.mapper.query "Account" [.aggregate "Count" "id" ["balance", "owner.age"],
        .aggregate "MAX" "id" ["balance", "owner.age"]] = .ok q ∧
      Bank.mapper.statement q = .ok st ∧
      st.command.resultKeys = ["balance", "owner.age", "id__count", "id__max"] ∧
      (st.command.resultKeys.Nodup ↔ q.KeysApart) := by
  obtain ⟨q, st, hq, hst, hkeys⟩ := exists_of_resultKeys Bank.mapper "Account"
    [.aggregate "Count" "id" ["balance", "owner.age"],
      .aggregate "MAX" "id" ["balance", "owner.age"]]
    ["balance", "owner.age", "id__count", "id__max"] (by decide +kernel)
  exact ⟨q, st, hq, hst, hkeys, resultKeys_nodup_iff hq hst⟩

/-- A path that is grouped by twice gives two members of one key. -/
theorem Mapper.resultKeys_repeated :
    ∃ q st, Bank.mapper.query "Account" [.aggregate "count" "id" ["balance", "balance"]] = .ok q ∧
      Bank.mapper.statement q = .ok st ∧ ¬ st.command.resultKeys.Nodup := by
  obtain ⟨q, st, hq, hst, hkeys⟩ := exists_of_resultKeys Bank.mapper "Account"
    [.aggregate "count" "id" ["balance", "balance"]] ["balance", "balance", "id__count"]
    (by decide +kernel)
  exact ⟨q, st, hq, hst, by simp [hkeys]⟩

end GraphMapper
