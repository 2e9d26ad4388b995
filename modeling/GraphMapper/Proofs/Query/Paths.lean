import GraphMapper.Proofs.Query.Plain
import GraphMapper.Proofs.Query.Readings
import GraphMapper.Proofs.Query.Stages

/-!
# The fields of a query

What holds of every field when its path has been resolved, and goes on to hold while stages are added,
holds of all fields of a query (`Mapper.query_kept`). So each of them is what its path is read as, at the
scope behind the relations of the path (`Mapper.Resolved.query_locates`), whatever traversals there were
when it was resolved. The segments of its path and of its attribute are identifiers
(`Draft.Locates.named`).
-/

namespace GraphMapper

open Outcome

/-! ## Fields that operations add -/

namespace Draft

variable {m : Mapper} {d d' : Draft}

/-- Something holds of all fields that the stages of a draft read. -/
def Throughout (d : Draft) (P : Draft → FieldPath → Prop) : Prop :=
  ∀ s ∈ d.stages, ∀ f ∈ s.fields, P d f

section

variable {P : Draft → FieldPath → Prop} (hP : Kept m P)
include hP

theorem Throughout.add {s : Stage} (hd : Built m d) (h : d.Throughout P)
    (hs : ∀ f ∈ s.fields, P d f) : (d.add s).Throughout P := by
  have hall : ∀ s' ∈ d.stages ++ [s], ∀ f ∈ s'.fields, P d f :=
    List.forall_mem_append.mpr ⟨h, List.forall_mem_singleton.mpr hs⟩
  exact fun s' hs' f hf => hP.add s hd (hall s' hs' f hf)

/-- Traversals have no fields of their own. -/
theorem Throughout.grow (hd : Built m d) (hgrows : Grows m d d') (h : d.Throughout P) :
    d'.Throughout P := by
  obtain ⟨ts, hstages, -⟩ := hgrows.stages
  intro s hs f hf
  rw [hstages] at hs
  rcases List.mem_append.mp hs with hs | hs
  · exact hP.grow hd hgrows (h s hs f hf)
  · obtain ⟨t, -, rfl⟩ := List.mem_map.mp hs
    simp [Stage.fields, Stage.laterFields] at hf

theorem followChain_throughout {scope : Scope} {entity : String} {depth : UInt32}
    {segments : List String} (hd : Built m d) (hat : d.At scope entity) (hall : d.Throughout P)
    (h : followChain m d scope entity depth segments = .ok d') : d'.Throughout P := by
  induction segments generalizing d scope entity with
  | nil => exact Except.ok.inj h ▸ hall
  | cons segment rest ih =>
    obtain ⟨⟨scope', entity', e⟩, hfollow, hrest⟩ := bind_eq_ok.mp h
    obtain ⟨hbuilt, -, hat'⟩ := follow_built hd hat hfollow
    obtain ⟨hop, -, -, hcases⟩ := follow_eq_ok hfollow
    rcases hcases with ⟨t, -, -, -, -, rfl⟩ | ⟨-, -, -, -, rfl⟩
    · exact ih hbuilt hat' hall hrest
    · exact ih hbuilt hat' (hall.add hP hd (by simp [Stage.fields, Stage.laterFields])) hrest

theorem apply_throughout {op : Operation} (hd : Built m d) (hall : d.Throughout P)
    (h : d.apply m op = .ok d') : d'.Throughout P := by
  cases applies_of_apply h with
  | filter hpredicate =>
    obtain ⟨hgrows, hfields, -⟩ := predicate_kept hP hd hpredicate
    exact (hall.grow hP hd hgrows).add hP hgrows.built fun f hf => (hfields f hf).1
  | project hpaths _ =>
    obtain ⟨hgrows, hfields⟩ := projectPaths_kept hP hd hpaths
    exact (hall.grow hP hd hgrows).add hP hgrows.built hfields
  | order _ hpaths =>
    obtain ⟨hgrows, hfields⟩ := scalarPaths_kept hP hd hpaths
    exact (hall.grow hP hd hgrows).add hP hgrows.built fun f hf => (hfields f hf).1
  | limit count offset => exact hall.add hP hd (by simp [Stage.fields, Stage.laterFields])
  | aggregate hpath hgroups =>
    obtain ⟨hgrows, hfield, -⟩ := scalarPath_kept hP hd hpath
    obtain ⟨hgrows', hfields⟩ := scalarPaths_kept hP hgrows.built hgroups
    refine ((hall.grow hP hd hgrows).grow hP hgrows.built hgrows').add hP hgrows'.built ?_
    refine List.forall_mem_append.mpr ⟨fun f hf => (hfields f hf).1, ?_⟩
    exact List.forall_mem_singleton.mpr (hP.grow hgrows.built hgrows' hfield)
  | traverse hchain =>
    exact followChain_throughout hP hd (show d.At .root d.entity from rfl) hall hchain
  | included _ _ => exact hall
  | «include» _ _ => exact hall.add hP hd (by simp [Stage.fields, Stage.laterFields])

end

end Draft

/-- What is kept holds of all fields of a query, at the draft that has all of its stages. -/
theorem Mapper.query_kept {m : Mapper} {P : Draft → FieldPath → Prop} (hP : Draft.Kept m P)
    {entity : String} {ops : List Operation} {q : Query} (h : m.query entity ops = .ok q) :
    ∃ d, Draft.Built m d ∧ d.entity = entity ∧ d.query = q ∧ d.Throughout P := by
  obtain ⟨d, hdraft, hquery⟩ := Mapper.query_eq_ok.mp h
  obtain ⟨hbuilt, hall⟩ := Mapper.draft_preserves (P := fun d => d.Throughout P)
    (fun _ => by simp [Draft.Throughout])
    (fun _ _ _ hd hall hstep => Draft.apply_throughout hP hd hall hstep) hdraft
  exact ⟨d, hbuilt, (Mapper.draft_built hdraft).2, hquery, hall⟩

/-! ## Fields and readings -/

/-- The field is what its path is read as, at the scope behind the relations of the path. -/
def Draft.Locates (m : Mapper) (d : Draft) (f : FieldPath) : Prop :=
  ∃ chain e, m.Reading d.entity (Text.split '.' f.path) chain e f.attribute? ∧
    f.entity = e.name ∧ d.Reads f ∧ d.route f.scope = chain.reverse

/-- The segments of the path and of the attribute are identifiers. -/
structure FieldPath.Named (f : FieldPath) : Prop where
  path : ∀ segment ∈ Text.split '.' f.path, Text.isIdentifier segment = true
  segments : ∀ a ∈ f.attribute?, ∀ segment ∈ a.segments, Text.isIdentifier segment = true

section

variable {m : Mapper} (hm : m.Resolved)
include hm

theorem Draft.Locates.named {d : Draft} {f : FieldPath} (h : d.Locates m f) : f.Named := by
  obtain ⟨chain, e, hreading, -⟩ := h
  exact ⟨(hreading.named hm).1, (hreading.named hm).2⟩

theorem Draft.kept_locates : Draft.Kept m fun d f => d.Locates m f := by
  constructor
  · intro d d' path f hd h
    obtain ⟨-, hreads⟩ := resolvePath_reads hd h
    obtain ⟨chain, e, hreading, hf, hfollows⟩ := resolvePath_reading hm hd h
    rw [← hfollows.grows.entity] at hreading
    have hpath : f.path = path := congrArg FieldPath.path hf
    refine ⟨chain, e, hpath.symm ▸ hreading, congrArg FieldPath.entity hf, hreads, ?_⟩
    exact hfollows.route.trans (List.append_nil _)
  · rintro d d' f hd hgrows ⟨chain, e, hreading, hentity, hreads, hroute⟩
    exact ⟨chain, e, hgrows.entity.symm ▸ hreading, hentity, hgrows.reads hreads,
      (hgrows.route hd hreads).trans hroute⟩
  · rintro d f s hd ⟨chain, e, hreading, hentity, hreads, hroute⟩
    exact ⟨chain, e, hreading, hentity, At.add hreads s, (hd.route_add hreads s).trans hroute⟩

/-- Every field of a query is what its path is read as. -/
theorem Mapper.Resolved.query_locates {entity : String} {ops : List Operation} {q : Query}
    (h : m.query entity ops = .ok q) : ∃ d, Draft.Built m d ∧ d.entity = entity ∧ d.query = q ∧
      ∀ s ∈ q.stages, ∀ f ∈ s.fields, d.Locates m f := by
  obtain ⟨d, hd, hentity, rfl, hall⟩ := Mapper.query_kept (Draft.kept_locates hm) h
  exact ⟨d, hd, hentity, rfl, hall⟩

end

end GraphMapper
