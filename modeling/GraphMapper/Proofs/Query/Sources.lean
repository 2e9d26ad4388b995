import GraphMapper.Proofs.Aql.Contained
import GraphMapper.Proofs.Query.Paths

/-!
# Where the parts of a statement come from

The names in the statement of a query are those of its fields, its inclusions and its collection, and
those of the edge collections that its hops follow (`Part.From`); besides them the statement has
slots, and these are its literals, numbered in the order of the text, and its parameters
(`Part.Asks`).
-/

namespace GraphMapper

open Outcome Aql

/-! ## Slots -/

namespace Aql

def Slot.literal? : Slot → Option Nat
  | literal n => some n
  | named _ => none

def Slot.named? : Slot → Option String
  | literal _ => none
  | named name => some name

/-- The slots among the parts are `count` literals, numbered from `next`, and parameters of these
names, each in order. -/
structure Asks (ps : List Part) (next count : Nat) (names : List String) : Prop where
  literals : (ps.filterMap Part.slot?).filterMap Slot.literal? = List.range' next count
  named : (ps.filterMap Part.slot?).filterMap Slot.named? = names

namespace Asks

variable {ps qs : List Part} {next count count' : Nat} {names names' : List String}

theorem none (h : ∀ p ∈ ps, p.slot? = Option.none) : Asks ps next 0 [] := by
  have hslots : ps.filterMap Part.slot? = [] := List.filterMap_eq_nil_iff.mpr h
  constructor <;> simp [hslots]

theorem append (h : Asks ps next count names) (h' : Asks qs (next + count) count' names') :
    Asks (ps ++ qs) next (count + count') (names ++ names') := by
  constructor
  · rw [List.filterMap_append, List.filterMap_append, h.literals, h'.literals, List.range'_append_1]
  · rw [List.filterMap_append, List.filterMap_append, h.named, h'.named]

/-- A parameter that is shown is among the names. -/
theorem mem_of_named (h : Asks ps next count names) {name : String}
    (hname : .slot (.named name) ∈ ps) : name ∈ names := by
  rw [← h.named, List.mem_filterMap]
  exact ⟨.named name, List.mem_filterMap.mpr ⟨_, hname, rfl⟩, rfl⟩

/-- The names of the slots are those of the literals and the parameters. -/
theorem mem_names (h : Asks ps 0 count names) {name : String} :
    name ∈ (ps.filterMap Part.slot?).map Slot.name ↔
      name ∈ (List.range count).map (fun n => (Slot.literal n).name) ∨ name ∈ names := by
  rw [List.range_eq_range', ← h.literals, ← h.named]
  simp only [List.mem_map, List.mem_filterMap]
  constructor
  · rintro ⟨slot, hslot, rfl⟩
    cases slot with
    | literal n => exact Or.inl ⟨n, ⟨.literal n, hslot, rfl⟩, rfl⟩
    | named name => exact Or.inr ⟨.named name, hslot, rfl⟩
  · rintro (⟨n, ⟨slot, hslot, hn⟩, rfl⟩ | ⟨slot, hslot, hname⟩)
    · cases slot with
      | literal k => exact ⟨.literal k, hslot, by rw [Option.some.inj hn]⟩
      | named _ => cases hn
    · cases slot with
      | literal _ => cases hname
      | named _ => exact ⟨_, hslot, Option.some.inj hname⟩

end Asks

end Aql

namespace Predicate

/-- A comparison shows its field and its slot, in one order or the other. -/
theorem parts_comparison (comparison : Comparison) (f : FieldPath) (slot : Slot) :
    (comparison.test f slot).parts = [.expr f.expr, .slot slot] ∨
      (comparison.test f slot).parts = [.slot slot, .expr f.expr] := by
  cases comparison with
  | contains =>
    unfold Comparison.test
    dsimp only
    split
    · exact Or.inl rfl
    · exact Or.inr rfl
  | _ => exact Or.inl rfl

theorem slots_comparison (comparison : Comparison) (f : FieldPath) (slot : Slot) :
    (comparison.test f slot).parts.filterMap Part.slot? = [slot] := by
  rcases parts_comparison comparison f slot with h | h <;> rw [h] <;> rfl

mutual
/-- A condition has a slot for each literal and each parameter of its predicate. -/
theorem asks : (p : Predicate) → (next : Nat) →
    Asks (p.test next).parts next p.literals.length p.parameters
  | .compare f comparison (.literal value), next => by
    have hslots := slots_comparison comparison f (.literal next)
    constructor <;> simp [test, Operand.slot, hslots, Slot.literal?, Slot.named?, literals, parameters]
  | .compare f comparison (.parameter name), next => by
    have hslots := slots_comparison comparison f (.named name)
    constructor <;> simp [test, Operand.slot, hslots, Slot.literal?, Slot.named?, literals, parameters]
  | .isNull f negated, next => .none (by simp [test, Test.parts, Part.slot?])
  | .all members, next => memberAsks members next
  | .any members, next => memberAsks members next
  | .not member, next => asks member next
theorem memberAsks : (ps : List Predicate) → (next : Nat) →
    Asks (Test.memberParts (memberTests next ps)) next (memberLiterals ps).length
      (memberParameters ps)
  | [], next => .none (by simp [memberTests, Test.memberParts])
  | p :: rest, next => by
    rw [memberTests, Test.memberParts, memberLiterals, List.length_append, memberParameters]
    exact (asks p next).append (memberAsks rest _)
end

end Predicate

/-! ## Sources -/

/-- What a part of the statement of a query shows, unless it is a slot. -/
inductive Aql.Part.From (m : Mapper) (q : Query) : Part → Prop
  | var (v : Var) : From m q (.var v)
  | bare (v : Var) : From m q (.expr (.field v []))
  | column (n : Nat) : From m q (.expr (.column n))
  | field {s : Stage} {f : FieldPath} : s ∈ q.stages → f ∈ s.fields → From m q (.expr f.expr)
  | root : From m q (.collection q.collection)
  | edges {source relationship : String} {hop : Hop} {entry : Direction × String} :
      m.topology.hop source relationship = .ok hop → entry ∈ hop.edgeCollections →
      From m q (.collection entry.2)
  | inclusion {i : Inclusion} : i ∈ q.inclusions → From m q (.key i.relationship)
  | path {s : Stage} {f : FieldPath} : s ∈ q.stages → f ∈ s.fields → From m q (.key f.path)
  | total {s : Stage} {f : FieldPath} (function : Function) : s ∈ q.stages → f ∈ s.fields →
      From m q (.key (function.resultKey f.path))

variable {m : Mapper} {q : Query}

theorem Aql.Part.From.slot?_eq_none {p : Part} (h : p.From m q) : p.slot? = none := by
  cases h <;> rfl

theorem Aql.Part.From.edges_parts {source relationship : String} {hop : Hop}
    (h : m.topology.hop source relationship = .ok hop) (start : Var) :
    ∀ p ∈ hop.edges.parts start, p.From m q := by
  intro p hp
  rw [Edges.parts, List.mem_cons, List.mem_cons, List.mem_map] at hp
  rcases hp with rfl | rfl | ⟨entry, hentry, rfl⟩
  · exact .var start
  · have hfirst : (hop.direction, hop.link.collection) ∈ hop.edgeCollections := List.mem_cons_self
    exact .edges h hfirst
  · exact .edges h (List.mem_of_mem_tail hentry)

namespace Predicate

mutual
/-- Besides its slots a condition shows the fields of its predicate. -/
theorem parts_test : (p : Predicate) → (next : Nat) → ∀ part ∈ (p.test next).parts,
    part.slot? = none → ∃ f ∈ p.fields, part = .expr f.expr
  | .compare f comparison operand, next, part, hpart, hslot => by
    refine ⟨f, by simp [fields], ?_⟩
    rcases parts_comparison comparison f (operand.slot next) with h | h
    · rw [test, h] at hpart
      rcases List.mem_pair.mp hpart with rfl | rfl
      · rfl
      · cases hslot
    · rw [test, h] at hpart
      rcases List.mem_pair.mp hpart with rfl | rfl
      · cases hslot
      · rfl
  | .isNull f negated, next, part, hpart, _ => ⟨f, by simp [fields], List.mem_singleton.mp hpart⟩
  | .all members, next, part, hpart, hslot => parts_memberTests members next part hpart hslot
  | .any members, next, part, hpart, hslot => parts_memberTests members next part hpart hslot
  | .not member, next, part, hpart, hslot => parts_test member next part hpart hslot
theorem parts_memberTests : (ps : List Predicate) → (next : Nat) →
    ∀ part ∈ Test.memberParts (memberTests next ps),
      part.slot? = none → ∃ f ∈ memberFields ps, part = .expr f.expr
  | [], _ => by simp [memberTests, Test.memberParts]
  | p :: rest, next => by
    intro part hpart hslot
    rw [memberTests, Test.memberParts, List.mem_append] at hpart
    rcases hpart with hpart | hpart
    · obtain ⟨f, hf, rfl⟩ := parts_test p next part hpart hslot
      exact ⟨f, List.mem_append_left _ hf, rfl⟩
    · obtain ⟨f, hf, rfl⟩ := parts_memberTests rest _ part hpart hslot
      exact ⟨f, List.mem_append_right _ hf, rfl⟩
end

end Predicate

/-- Parts of the statement of a query: `count` literals from `next` on, these parameters, and what
the query names. -/
structure Query.Shows (m : Mapper) (q : Query) (ps : List Part) (next count : Nat)
    (names : List String) : Prop extends Asks ps next count names where
  sources : ∀ p ∈ ps, p.slot? = none → p.From m q

namespace Query.Shows

variable {ps qs : List Part} {next count count' : Nat} {names names' : List String}

theorem plain (h : ∀ p ∈ ps, p.From m q) : q.Shows m ps next 0 [] :=
  ⟨.none fun p hp => (h p hp).slot?_eq_none, fun p hp _ => h p hp⟩

theorem append (h : q.Shows m ps next count names) (h' : q.Shows m qs (next + count) count' names') :
    q.Shows m (ps ++ qs) next (count + count') (names ++ names') :=
  ⟨h.toAsks.append h'.toAsks, List.forall_mem_append.mpr ⟨h.sources, h'.sources⟩⟩

/-- Parts without slots may stand in front and behind. -/
theorem within {before after : List Part} (h : q.Shows m ps next count names)
    (hbefore : ∀ p ∈ before, p.From m q) (hafter : ∀ p ∈ after, p.From m q) :
    q.Shows m (before ++ ps ++ after) next count names := by
  have hfirst : q.Shows m (before ++ ps) next (0 + count) ([] ++ names) := (plain hbefore).append h
  have hall := hfirst.append (plain hafter)
  simpa using hall

end Query.Shows

/-! ## Filters and traversals -/

theorem Predicate.shows {p : Predicate} (hp : .filter p ∈ q.stages) (next : Nat) :
    q.Shows m (p.test next).parts next p.literals.length p.parameters := by
  refine ⟨p.asks next, fun part hpart hslot => ?_⟩
  obtain ⟨f, hf, rfl⟩ := p.parts_test next part hpart hslot
  exact .field hp hf

/-- The steps of stages have the literals and the parameters of their filters. -/
theorem Stage.shows_steps {stages : List Stage} {next : Nat} {made : List Step}
    (hstages : ∀ s ∈ stages, s ∈ q.stages) (h : steps m.topology next stages = .ok made) :
    q.Shows m (made.flatMap Step.parts) next (stages.flatMap literals).length
      (stages.flatMap parameters) := by
  induction stages generalizing next made with
  | nil =>
    obtain rfl := Except.ok.inj h
    exact .plain (by simp)
  | cons s rest ih =>
    obtain ⟨hs, hrest⟩ := List.forall_mem_cons.mp hstages
    rw [List.flatMap_cons, List.flatMap_cons, List.length_append]
    cases s with
    | filter p =>
      obtain ⟨others, hothers, h⟩ := bind_eq_ok.mp h
      obtain rfl := pure_eq_ok.mp h
      exact (Predicate.shows hs next).append (ih hrest hothers)
    | traverse t =>
      obtain ⟨step, hstep, h⟩ := bind_eq_ok.mp h
      obtain ⟨others, hothers, h⟩ := bind_eq_ok.mp h
      obtain rfl := pure_eq_ok.mp h
      obtain ⟨hop, hhop, hstep⟩ := bind_eq_ok.mp hstep
      obtain rfl := pure_eq_ok.mp hstep
      exact (Query.Shows.plain (List.forall_mem_cons.mpr ⟨.var _, .edges_parts hhop _⟩)).append
        (ih hrest hothers)
    | _ => simpa [literals, parameters] using ih hrest h

namespace Query

/-- Every stage is in one of the two parts. -/
theorem split_perm (q : Query) (joined : Bool) :
    ((q.split joined).1 ++ (q.split joined).2).Perm q.stages := by
  cases joined with
  | false => exact (List.append_nil q.stages) ▸ .refl _
  | true => exact List.filter_append_perm _ _

theorem mem_split {joined : Bool} {s : Stage} :
    s ∈ (q.split joined).1 ++ (q.split joined).2 ↔ s ∈ q.stages :=
  (q.split_perm joined).mem_iff

theorem columns_from : ∀ p ∈ q.columns.map Part.expr, p.From m q := by
  intro p hp
  obtain ⟨e, he, rfl⟩ := List.mem_map.mp hp
  obtain ⟨f, hf, -, rfl⟩ := mem_columns.mp he
  obtain ⟨s, hs, hf⟩ := List.mem_flatMap.mp hf
  exact .field hs (s.laterFields_subset hf)

/-- Matching has all the literals and all the parameters of a query. -/
theorem shows_matching {joined : Bool} {clauses : List Clause}
    (h : q.matching m.topology joined = .ok clauses) :
    q.Shows m (clauses.flatMap Clause.parts) 0 (q.literals joined).length
      (((q.split joined).1 ++ (q.split joined).2).flatMap Stage.parameters) := by
  have hmem : ∀ s ∈ (q.split joined).1 ++ (q.split joined).2, s ∈ q.stages :=
    fun s => mem_split.mp
  obtain ⟨houterMem, hinnerMem⟩ := List.forall_mem_append.mp hmem
  rw [literals, List.flatMap_append, List.flatMap_append, List.length_append]
  obtain ⟨outer, houter, h⟩ := bind_eq_ok.mp h
  have hsteps : (outer.map Clause.step).flatMap Clause.parts = outer.flatMap Step.parts := by
    rw [List.flatMap_map]
    rfl
  have houterShows := hsteps ▸ Stage.shows_steps houterMem houter
  cases joined with
  | false =>
    obtain rfl := pure_eq_ok.mp h
    simpa [split] using houterShows
  | true =>
    obtain ⟨inner, hinner, h⟩ := bind_eq_ok.mp h
    obtain rfl := pure_eq_ok.mp h
    rw [List.flatMap_append]
    -- The conditions of the match stand behind the filters of the document, and their literals are
    -- numbered from there on.
    refine houterShows.append ?_
    have hparts : [Clause.firstMatch inner q.columns].flatMap Clause.parts =
        [.var .hit] ++ inner.flatMap Step.parts ++ (q.columns.map .expr ++ [.var .hit]) := by
      simp [Clause.parts]
    rw [hparts, Nat.zero_add]
    refine (Stage.shows_steps hinnerMem hinner).within ?_ ?_
    · exact List.forall_mem_singleton.mpr (.var _)
    · exact List.forall_mem_append.mpr ⟨columns_from, List.forall_mem_singleton.mpr (.var _)⟩

end Query

/-! ## Inclusions, groups, sorting and paging -/

section Rows

variable {o : Outline} {joined : Bool}

theorem forall_mem_flatten_mapIdx {α β : Type} {f : Nat → α → List β} {as : List α} {P : β → Prop}
    (h : ∀ n, ∀ a ∈ as, ∀ b ∈ f n a, P b) : ∀ b ∈ (as.mapIdx f).flatten, P b := by
  intro b hb
  obtain ⟨bs, hbs, hb⟩ := List.mem_flatten.mp hb
  obtain ⟨n, hn, rfl⟩ := List.mem_mapIdx.mp hbs
  exact h n _ (List.getElem_mem hn) b hb

theorem columnOr_from {f : FieldPath} (columns : List Expr)
    (hf : f ∈ q.stages.flatMap Stage.laterFields) : (Part.expr (columnOr columns f)).From m q := by
  obtain ⟨s, hs, hmem⟩ := List.mem_flatMap.mp hf
  rcases columnOr_cases columns f with ⟨n, -, h⟩ | ⟨-, h⟩
  · exact h ▸ .column n
  · exact h ▸ .field hs (s.laterFields_subset hmem)

theorem inclusionClauses_from {entity : String} {is : List Inclusion} {index : Nat}
    {clauses : List Clause} (h : inclusionClauses m.topology entity index is = .ok clauses) :
    ∀ p ∈ clauses.flatMap Clause.parts, p.From m q := by
  induction is generalizing index clauses with
  | nil =>
    obtain rfl := Except.ok.inj h
    simp
  | cons i rest ih =>
    obtain ⟨clause, hclause, h⟩ := bind_eq_ok.mp h
    obtain ⟨others, hothers, h⟩ := bind_eq_ok.mp h
    obtain rfl := pure_eq_ok.mp h
    obtain ⟨hop, hhop, hclause⟩ := bind_eq_ok.mp hclause
    obtain rfl := pure_eq_ok.mp hclause
    rw [List.flatMap_cons]
    refine List.forall_mem_append.mpr ⟨List.forall_mem_append.mpr ⟨?_, by simp [Part.From.var]⟩,
      ih hothers⟩
    exact List.forall_mem_cons.mpr ⟨.var _, List.forall_mem_cons.mpr ⟨.var _, .edges_parts hhop _⟩⟩

theorem collect_from (ho : o.Within (q.stages.flatMap Stage.laterFields)) (columns : List Expr) :
    ∀ p ∈ (o.collect columns).flatMap Clause.parts, p.From m q := by
  unfold Outline.collect
  split
  · simp
  · have assigned : ∀ (v : Var) {e : Expr}, (Part.expr e).From m q →
        ∀ p ∈ [Part.var v, .expr e], p.From m q :=
      fun v _ he => List.forall_mem_cons.mpr ⟨.var v, List.forall_mem_singleton.mpr he⟩
    rw [List.flatMap_singleton, Clause.parts]
    refine List.forall_mem_append.mpr ⟨forall_mem_flatten_mapIdx fun n e he => ?_,
      forall_mem_flatten_mapIdx fun n t ht => ?_⟩
    · obtain ⟨g, hg, rfl⟩ := List.mem_map.mp he
      exact assigned _ (columnOr_from columns (ho.groups g hg))
    · obtain ⟨total, htotal, rfl⟩ := List.mem_map.mp ht
      exact assigned _ (columnOr_from columns (ho.totals total htotal).1)

theorem sortKey_from {columns : List Expr} {f : FieldPath} {e : Expr}
    (hf : f ∈ q.stages.flatMap Stage.laterFields) (h : o.sortKey columns f = .ok e) :
    (Part.expr e).From m q := by
  unfold Outline.sortKey at h
  split at h
  · exact Except.ok.inj h ▸ columnOr_from columns hf
  · split at h
    · exact Except.ok.inj h ▸ .bare _
    · cases h

/-- Sorting and paging read what they sort by. -/
theorem pages_from {pages : List Clause} (h : ∀ c ∈ pages, c.Pages fun e => (Part.expr e).From m q) :
    ∀ p ∈ pages.flatMap Clause.parts, p.From m q := by
  intro p hp
  obtain ⟨c, hc, hp⟩ := List.mem_flatMap.mp hp
  cases h c hc with
  | sort hkeys =>
    obtain ⟨k, hk, rfl⟩ := List.mem_map.mp hp
    exact hkeys k hk
  | limit offset count => cases hp

theorem entryParts_from {entries : List (String × Expr)}
    (h : ∀ e ∈ entries, (Part.key e.1).From m q ∧ (Part.expr e.2).From m q) :
    ∀ p ∈ entryParts entries, p.From m q := by
  intro p hp
  obtain ⟨e, he, hp⟩ := List.mem_flatMap.mp hp
  rcases List.mem_pair.mp hp with rfl | rfl
  · exact (h e he).1
  · exact (h e he).2

/-- The keys of a result are paths, perhaps with the suffix of a function, and inclusions. -/
theorem result_from (ho : o.Within (q.stages.flatMap Stage.laterFields)) (columns : List Expr) :
    ∀ p ∈ (o.result q columns).parts, p.From m q := by
  have hincluded : ∀ e ∈ q.includedEntries, (Part.key e.1).From m q ∧ (Part.expr e.2).From m q := by
    intro e he
    obtain ⟨n, hn, rfl⟩ := List.mem_mapIdx.mp he
    exact ⟨.inclusion (List.getElem_mem hn), .bare _⟩
  have hfield : ∀ f ∈ q.stages.flatMap Stage.laterFields, ∃ s ∈ q.stages, f ∈ s.fields := by
    intro f hf
    obtain ⟨s, hs, hf⟩ := List.mem_flatMap.mp hf
    exact ⟨s, hs, s.laterFields_subset hf⟩
  unfold Outline.result
  split
  · refine entryParts_from (List.forall_mem_append.mpr ⟨fun e he => ?_, fun e he => ?_⟩)
    · obtain ⟨n, hn, rfl⟩ := List.mem_mapIdx.mp he
      obtain ⟨s, hs, hf⟩ := hfield _ (ho.groups _ (List.getElem_mem hn))
      exact ⟨.path hs hf, .bare _⟩
    · obtain ⟨n, hn, rfl⟩ := List.mem_mapIdx.mp he
      obtain ⟨s, hs, hf⟩ := hfield _ (ho.totals _ (List.getElem_mem hn)).1
      exact ⟨.total _ hs hf, .bare _⟩
  · split
    · refine entryParts_from (List.forall_mem_append.mpr ⟨fun e he => ?_, hincluded⟩)
      obtain ⟨f, hf, rfl⟩ := List.mem_map.mp he
      obtain ⟨s, hs, hmem⟩ := hfield f (ho.projection f hf)
      exact ⟨.path hs hmem, columnOr_from columns (ho.projection f hf)⟩
    · split
      · exact List.forall_mem_cons.mpr ⟨.var _, entryParts_from hincluded⟩
      · exact List.forall_mem_singleton.mpr (.var _)

end Rows

/-! ## The statement -/

/-- The statement of a query has its literals, numbered in the order of the text, its parameters, and
besides them what the query names. -/
theorem Mapper.statement_shows {st : Statement} (h : m.statement q = .ok st) :
    ∃ names, q.Shows m st.command.parts 0 (q.literals (q.isJoined m.settings)).length names ∧
      ∀ name, name ∈ names ↔ name ∈ q.parameters := by
  obtain ⟨joined, o, matching, inclusions, pages, rfl, ho, hmatching, hinclusions, hpages,
    hcommand⟩ := statement_eq_ok h
  have hwithin := Outline.ofQuery_within ho
  refine ⟨((q.split (q.isJoined m.settings)).1 ++ (q.split (q.isJoined m.settings)).2).flatMap
    Stage.parameters, ?_, fun name => ?_⟩
  · have hparts : st.command.parts =
        [.var .doc, .collection q.collection] ++ matching.flatMap Clause.parts ++
          (inclusions.flatMap Clause.parts ++
            (o.collect (q.columnsOf (q.isJoined m.settings))).flatMap Clause.parts ++
            pages.flatMap Clause.parts ++
            (o.result q (q.columnsOf (q.isJoined m.settings))).parts) := by
      simp [hcommand, Command.parts]
    rw [hparts]
    refine (Query.shows_matching hmatching).within ?_ ?_
    · exact List.forall_mem_cons.mpr ⟨.var _, List.forall_mem_singleton.mpr .root⟩
    · refine List.forall_mem_append.mpr ⟨List.forall_mem_append.mpr
        ⟨List.forall_mem_append.mpr ⟨inclusionClauses_from hinclusions, collect_from hwithin _⟩, ?_⟩,
        result_from hwithin _⟩
      exact pages_from (pages_of_paging hpages (fun f hf e he => sortKey_from hf he) (by simp))
  · rw [Query.parameters, mem_sortDistinct, List.mem_flatMap, List.mem_flatMap]
    simp only [Query.mem_split]

end GraphMapper
