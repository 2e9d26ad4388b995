import GraphMapper.Proofs.Aql.Parsing
import GraphMapper.Proofs.Query.Names

/-!
# The text of a filter has the structure of its predicate

A predicate stands for a formula (`Predicate.formula`): its groups and negations nested as they are,
its members in their order, and for each leaf a comparison, a call or an `IN` of the field and the
placeholder. Reading the text of a legible predicate gives this formula, and so it does for every
filter of a query, because operations make no empty groups (`Draft.predicate_filled`) and all names in
a query are identifiers.
-/

namespace GraphMapper

open Outcome Aql

/-! ## Predicates as formulas -/

/-- What the variable of a scope is called. -/
def Scope.name : Scope → String
  | .root => "doc"
  | .traversal index => "t" ++ toString index

/-- The field as it is read. -/
def FieldPath.formula (f : FieldPath) : Formula :=
  .field f.scope.name ((f.attribute?.map (·.segments)).getD [])

/-- The placeholder of an operand, given the number of the next literal. -/
def Operand.formula (next : Nat) : Operand → Formula
  | .literal _ => .slot ("lit" ++ toString next)
  | .parameter name => .slot name

/-- A comparison as it is read; what a string contains is asked by a call, what anything else
contains by `IN` with the field on its right. -/
def Comparison.formula (comparison : Comparison) (field : FieldPath) (operand : Formula) : Formula :=
  match comparison with
  | .equal => .relation field.formula .equal operand
  | .notEqual => .relation field.formula .notEqual operand
  | .lessThan => .relation field.formula .less operand
  | .lessThanOrEqual => .relation field.formula .lessEqual operand
  | .greaterThan => .relation field.formula .greater operand
  | .greaterThanOrEqual => .relation field.formula .greaterEqual operand
  | .contains =>
    if field.attribute?.map (·.type) = some .string then
      .call "CONTAINS" [field.formula, operand]
    else .memberOf operand field.formula
  | .startsWith => .call "STARTS_WITH" [field.formula, operand]
  | .isIn => .memberOf field.formula operand

namespace Predicate

mutual
/-- A predicate as it is read, when its first literal has the number `next`. -/
def formula (next : Nat) : Predicate → Formula
  | compare field comparison operand => comparison.formula field (operand.formula next)
  | isNull field negated =>
    .relation field.formula (if negated then .notEqual else .equal) .null
  | all members => .group .all (memberFormulas next members)
  | any members => .group .any (memberFormulas next members)
  | not member => .not (member.formula next)
def memberFormulas (next : Nat) : List Predicate → List Formula
  | [] => []
  | p :: rest => p.formula next :: memberFormulas (next + p.literals.length) rest
end

mutual
/-- No group is empty. -/
def Filled : Predicate → Prop
  | all members => members ≠ [] ∧ MembersFilled members
  | any members => members ≠ [] ∧ MembersFilled members
  | not member => member.Filled
  | compare _ _ _ => True
  | isNull _ _ => True
def MembersFilled : List Predicate → Prop
  | [] => True
  | p :: rest => p.Filled ∧ MembersFilled rest
end

/-- No group is empty, and the attributes and parameters are identifiers. -/
structure Legible (p : Predicate) : Prop where
  filled : p.Filled
  segments : ∀ f ∈ p.fields, ∀ a ∈ f.attribute?, ∀ s ∈ a.segments, Text.isIdentifier s = true
  parameters : ∀ name ∈ p.parameters, Text.isIdentifier name = true

end Predicate

/-! ## The condition of a predicate -/

theorem Scope.name_var (s : Scope) : s.var.text = s.name := by
  cases s with
  | root => decide
  | traversal index => exact textOf_numbered .step index

theorem FieldPath.formula_expr (f : FieldPath) : f.expr.formula = f.formula := by
  rw [expr, Expr.formula, Scope.name_var, formula]

theorem Operand.formula_slot (next : Nat) (operand : Operand) :
    Formula.slot (operand.slot next).name = operand.formula next := by
  cases operand <;> rfl

theorem Comparison.formula_test (comparison : Comparison) (f : FieldPath) (slot : Slot) :
    (comparison.test f slot).formula = comparison.formula f (.slot slot.name) := by
  cases comparison with
  | contains =>
    rw [test, formula]
    split <;> simp [Test.formula, f.formula_expr, Word.text]
  | _ => simp [test, formula, Test.formula, f.formula_expr, Word.text]

theorem Comparison.filled_test (comparison : Comparison) (f : FieldPath) (slot : Slot) :
    (comparison.test f slot).Filled := by
  cases comparison with
  | contains =>
    rw [test]
    split <;> trivial
  | _ => trivial

namespace Predicate

mutual
/-- The condition of a predicate is read as the predicate is. -/
theorem formula_test : (p : Predicate) → (next : Nat) → (p.test next).formula = p.formula next
  | compare f comparison operand, next => by
    rw [test, comparison.formula_test, Operand.formula_slot, formula]
  | isNull f negated, next => by rw [test, Test.formula, f.formula_expr, formula]
  | all members, next => by rw [test, Test.formula, formulas_memberTests members next, formula]
  | any members, next => by rw [test, Test.formula, formulas_memberTests members next, formula]
  | not member, next => by rw [test, Test.formula, formula_test member next, formula]
theorem formulas_memberTests : (ps : List Predicate) → (next : Nat) →
    Test.memberFormulas (memberTests next ps) = memberFormulas next ps
  | [], _ => rfl
  | p :: rest, next => by
    rw [memberTests, Test.memberFormulas, formula_test p next, formulas_memberTests rest,
      memberFormulas]
end

theorem memberTests_ne_nil {members : List Predicate} (h : members ≠ []) (next : Nat) :
    memberTests next members ≠ [] := by
  cases members with
  | nil => exact absurd rfl h
  | cons p rest => simp [memberTests]

mutual
theorem filled_test : (p : Predicate) → (next : Nat) → p.Filled → (p.test next).Filled
  | compare f comparison operand, next, _ => comparison.filled_test f (operand.slot next)
  | isNull _ _, _, _ => trivial
  | all members, next, h => ⟨memberTests_ne_nil h.1 next, filled_memberTests members next h.2⟩
  | any members, next, h => ⟨memberTests_ne_nil h.1 next, filled_memberTests members next h.2⟩
  | not member, next, h => filled_test member next h
theorem filled_memberTests : (ps : List Predicate) → (next : Nat) → MembersFilled ps →
    Test.MembersFilled (memberTests next ps)
  | [], _, _ => trivial
  | p :: rest, next, h => ⟨filled_test p next h.1, filled_memberTests rest _ h.2⟩
end

/-- What the condition of a legible predicate shows is contained. -/
theorem Legible.contained {p : Predicate} (hp : p.Legible) (next : Nat) :
    ∀ part ∈ (p.test next).parts, part.Contained := by
  intro part hpart
  cases hslot : part.slot? with
  | none =>
    obtain ⟨f, hf, rfl⟩ := p.parts_test next part hpart hslot
    refine .expr ?_
    cases hattribute : f.attribute? with
    | none => simp [FieldPath.expr, Expr.segments, hattribute]
    | some a =>
      have hsegments := hp.segments f hf a hattribute
      simpa [FieldPath.expr, Expr.segments, hattribute] using hsegments
  | some slot =>
    obtain rfl := Part.eq_of_slot?_eq_some hslot
    cases slot with
    | literal n => exact .literal n
    | named name => exact .named (hp.parameters name ((p.asks next).mem_of_named hpart))

/-- Reading the text of a legible predicate gives the predicate. -/
theorem Legible.parse?_text {p : Predicate} (hp : p.Legible) (next : Nat) :
    Formula.parse? (textOf (p.test next).lexemes) = some (p.formula next) :=
  p.formula_test next ▸ Test.parse?_text (p.filled_test next hp.filled) (hp.contained next)

end Predicate

/-! ## Predicates of queries -/

namespace Draft

variable {m : Mapper} {d d' : Draft}

mutual
/-- Operations make no empty groups. -/
theorem predicate_filled {c : Condition} {p : Predicate} {d d' : Draft}
    (h : d.predicate m c = .ok (p, d')) : p.Filled := by
  cases c with
  | compare path comparison operand =>
    obtain ⟨⟨f, e⟩, -, h⟩ := bind_eq_ok.mp h
    obtain ⟨_, -, h⟩ := bind_eq_ok.mp h
    obtain ⟨rfl, -⟩ := Prod.mk.inj (pure_eq_ok.mp h)
    trivial
  | isNull path negated =>
    obtain ⟨⟨f, e⟩, -, h⟩ := bind_eq_ok.mp h
    obtain ⟨rfl, -⟩ := Prod.mk.inj (pure_eq_ok.mp h)
    trivial
  | all conditions =>
    obtain ⟨hsome, h⟩ := guard_eq_ok.mp h
    obtain ⟨⟨ps, e⟩, hmembers, h⟩ := bind_eq_ok.mp h
    obtain ⟨rfl, -⟩ := Prod.mk.inj (pure_eq_ok.mp h)
    exact predicates_filled (by simpa using hsome) hmembers
  | any conditions =>
    obtain ⟨hsome, h⟩ := guard_eq_ok.mp h
    obtain ⟨⟨ps, e⟩, hmembers, h⟩ := bind_eq_ok.mp h
    obtain ⟨rfl, -⟩ := Prod.mk.inj (pure_eq_ok.mp h)
    exact predicates_filled (by simpa using hsome) hmembers
  | not condition =>
    obtain ⟨⟨member, e⟩, hmember, h⟩ := bind_eq_ok.mp h
    obtain ⟨rfl, -⟩ := Prod.mk.inj (pure_eq_ok.mp h)
    have hfilled := predicate_filled hmember
    exact hfilled
theorem predicates_filled {cs : List Condition} {ps : List Predicate} {d d' : Draft}
    (hcs : cs ≠ []) (h : d.predicates m cs = .ok (ps, d')) :
    ps ≠ [] ∧ Predicate.MembersFilled ps := by
  cases cs with
  | nil => exact absurd rfl hcs
  | cons c rest =>
    obtain ⟨⟨p, e⟩, hmember, h⟩ := bind_eq_ok.mp h
    obtain ⟨⟨others, e'⟩, hrest, h⟩ := bind_eq_ok.mp h
    obtain ⟨rfl, -⟩ := Prod.mk.inj (pure_eq_ok.mp h)
    refine ⟨List.cons_ne_nil _ _, predicate_filled hmember, ?_⟩
    cases rest with
    | nil =>
      obtain ⟨rfl, -⟩ := Prod.mk.inj (Except.ok.inj hrest)
      trivial
    | cons next more => exact (predicates_filled (List.cons_ne_nil _ _) hrest).2
end

/-- No filter of the draft has an empty group. -/
def Filled (d : Draft) : Prop := ∀ p, .filter p ∈ d.stages → p.Filled

theorem Filled.add {s : Stage} (hd : d.Filled) (hs : ∀ p, s = .filter p → p.Filled) :
    (d.add s).Filled := by
  intro p hp
  rcases List.mem_append.mp hp with hp | hp
  · exact hd p hp
  · exact hs p (List.mem_singleton.mp hp).symm

theorem Filled.grow (hd : d.Filled) (hgrows : Grows m d d') : d'.Filled := by
  obtain ⟨ts, hstages, -⟩ := hgrows.stages
  intro p hp
  rw [hstages] at hp
  rcases List.mem_append.mp hp with hp | hp
  · exact hd p hp
  · obtain ⟨t, -, heq⟩ := List.mem_map.mp hp
    cases heq

theorem followChain_filled {scope : Scope} {entity : String} {depth : UInt32}
    {segments : List String} (hd : d.Filled)
    (h : followChain m d scope entity depth segments = .ok d') : d'.Filled := by
  induction segments generalizing d scope entity with
  | nil => exact Except.ok.inj h ▸ hd
  | cons segment rest ih =>
    obtain ⟨⟨scope', entity', e⟩, hfollow, hrest⟩ := bind_eq_ok.mp h
    obtain ⟨hop, -, -, hcases⟩ := follow_eq_ok hfollow
    rcases hcases with ⟨t, -, -, -, -, rfl⟩ | ⟨-, -, -, -, rfl⟩
    · exact ih hd hrest
    · exact ih (hd.add (by simp)) hrest

theorem apply_filled {op : Operation} (hbuilt : Built m d) (hd : d.Filled)
    (h : d.apply m op = .ok d') : d'.Filled := by
  cases applies_of_apply h with
  | filter hpredicate =>
    have hfilled := predicate_filled hpredicate
    refine (hd.grow (predicate_reads hbuilt hpredicate).1).add fun p heq => ?_
    exact Stage.filter.inj heq ▸ hfilled
  | project hpaths _ => exact (hd.grow (projectPaths_reads hbuilt hpaths).1).add (by simp)
  | order _ hpaths => exact (hd.grow (scalarPaths_reads hbuilt hpaths).1).add (by simp)
  | limit count offset => exact hd.add (by simp)
  | aggregate hpath hgroups =>
    have hgrows := (scalarPath_reads hbuilt hpath).1
    have hgrows' := (scalarPaths_reads hgrows.built hgroups).1
    exact (hd.grow (hgrows.trans hgrows')).add (by simp)
  | traverse hchain => exact followChain_filled hd hchain
  | included _ _ => exact hd
  | «include» _ _ => exact hd.add (by simp)

end Draft

namespace Mapper

variable {m : Mapper} {entity : String} {ops : List Operation} {q : Query}

/-- No filter of a query has an empty group. -/
theorem query_filled (h : m.query entity ops = .ok q) {p : Predicate} (hp : .filter p ∈ q.stages) :
    p.Filled := by
  obtain ⟨d, hdraft, rfl⟩ := query_eq_ok.mp h
  have hfilled := (draft_preserves (P := Draft.Filled) (fun _ _ hp => nomatch hp)
    (fun _ _ _ hbuilt hd hstep => Draft.apply_filled hbuilt hd hstep) hdraft).2
  exact hfilled p hp

/-- The filters of a query are legible. -/
theorem Resolved.legible (hm : m.Resolved) (h : m.query entity ops = .ok q) {p : Predicate}
    (hp : .filter p ∈ q.stages) : p.Legible := by
  have hnamed := hm.query_named h
  refine ⟨query_filled h hp, fun f hf => (hnamed.fields _ hp f hf).segments, ?_⟩
  intro name hname
  apply isIdentifier_of_isParameterName
  apply hnamed.parameters
  rw [Query.parameters, mem_sortDistinct]
  exact List.mem_flatMap.mpr ⟨_, hp, hname⟩

/-- The text of a predicate is read as the predicate, when its groups are not empty and its names
are identifiers; all filters of queries are such. -/
theorem Resolved.filter_read (hm : m.Resolved) :
    (∀ p : Predicate, p.Legible → ∀ next,
      Formula.parse? (textOf (p.test next).lexemes) = some (p.formula next)) ∧
    ∀ entity ops q, m.query entity ops = .ok q → ∀ p, .filter p ∈ q.stages → p.Legible :=
  ⟨fun _ hp next => hp.parse?_text next, fun _ _ _ h _ hp => hm.legible h hp⟩

end Mapper

/-! ## A filter on articles -/

/-- Articles of authors of some ages with a text in the title or a tag, or with a filter. -/
def Articles.filter : Predicate :=
  let title : FieldPath := ⟨"title", .root, "Article", some ⟨["title"], .string⟩⟩
  let tags : FieldPath := ⟨"meta.tags", .root, "Article", some ⟨["meta", "tags"], .json⟩⟩
  let age : FieldPath := ⟨"author.age", .traversal 0, "Author", some ⟨["age"], .integer⟩⟩
  let reserved : FieldPath := ⟨"filter", .root, "Article", some ⟨["filter"], .integer⟩⟩
  .any [.all [.any [.compare title .contains (.literal (.string "Dune")),
        .compare tags .contains (.parameter "tag")],
      .not (.all [.compare age .isIn (.parameter "ages")])],
    .isNull reserved true]

theorem Articles.filter_legible : filter.Legible where
  filled := by simp [filter, Predicate.Filled, Predicate.MembersFilled]
  segments := by
    simp only [filter, Predicate.fields, Predicate.memberFields]
    decide
  parameters := by
    simp only [filter, Predicate.parameters, Predicate.memberParameters]
    decide

/-- What is read in the text of a filter, and that the filter of a query can be read. -/
theorem Mapper.filter_read_articles :
    textOf (Articles.filter.test 0).lexemes =
        "(((CONTAINS(doc.title, @lit0) OR @tag IN doc.meta.tags) AND NOT ((t0.age IN @ages))) " ++
          "OR doc.`filter` != null)" ∧
      Formula.parse? (textOf (Articles.filter.test 0).lexemes) = some (.any [
        .all [.any [.call "CONTAINS" [.field "doc" ["title"], .slot "lit0"],
            .memberOf (.slot "tag") (.field "doc" ["meta", "tags"])],
          .not (.memberOf (.field "t0" ["age"]) (.slot "ages"))],
        .relation (.field "doc" ["filter"]) .notEqual .null]) ∧
      ∃ q, Bank.mapper.query "Account" [.filter (.any [.compare "owner.age" .equal (.parameter "age"),
          .not (.isNull "balance" false)])] = .ok q ∧
        ∀ p, .filter p ∈ q.stages → p.Legible := by
  have hread := Mapper.Resolved.filter_read Bank.mapper_resolved
  refine ⟨by decide +kernel, (hread.1 _ Articles.filter_legible 0).trans rfl, ?_⟩
  have hok : (Bank.mapper.query "Account" [.filter (.any [.compare "owner.age" .equal
      (.parameter "age"), .not (.isNull "balance" false)])]).isOk = true := by decide +kernel
  obtain ⟨q, hq⟩ := exists_of_isOk hok
  exact ⟨q, hq, hread.2 _ _ q hq⟩

end GraphMapper
