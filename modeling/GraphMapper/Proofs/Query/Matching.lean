import GraphMapper.Proofs.Aql.Evaluation
import GraphMapper.Proofs.Dict
import GraphMapper.Proofs.Query.Built
import GraphMapper.Proofs.Text.Identifier
import GraphMapper.Query.Statement
import GraphMapper.Query.Typing
import Std.Data.String.ToNat

/-!
# The rows of filters and traversals

`Stage.nested` reads the stages of a query themselves as nested loops, with the values of literals
and parameters in their places (`Operand.value`). The steps that are made of the stages have the
same rows whatever number their first literal has, as long as the slots have the values of the
literals in order (`stepRows_steps`), and in the statement of a query they have
(`Statement.filled_literals`): no two literals share a slot name, and the name of a parameter is
never that of a literal.
-/

namespace GraphMapper

open Outcome Aql

variable {V : Type}

/-! ## The values of operands -/

/-- The value on the right side of a comparison. -/
def Operand.value (db : Database V) (parameters : String → V) : Operand → V
  | .literal value => db.literal value.toJson
  | .parameter name => parameters name

/-- A comparison with the values of its sides. -/
def Comparison.judged (comparison : Comparison) (field : FieldPath) (left right : V) :
    Judgement V :=
  match comparison with
  | .equal => .relation left .equal right
  | .notEqual => .relation left .notEqual right
  | .lessThan => .relation left .less right
  | .lessThanOrEqual => .relation left .lessEqual right
  | .greaterThan => .relation left .greater right
  | .greaterThanOrEqual => .relation left .greaterEqual right
  | .contains =>
    if field.attribute?.map (·.type) = some .string then .contains left right
    else .hasMember left right
  | .startsWith => .startsWith left right
  | .isIn => .memberOf left right

namespace Predicate

variable (value : Expr → V) (operand : Operand → V)

mutual
/-- A predicate with the values of its fields and operands. -/
def judged : Predicate → Judgement V
  | compare field comparison right => comparison.judged field (value field.expr) (operand right)
  | isNull field negated => .isNull (value field.expr) negated
  | all members => .all (memberJudged members)
  | any members => .any (memberJudged members)
  | not member => .not member.judged
def memberJudged : List Predicate → List (Judgement V)
  | [] => []
  | p :: rest => p.judged :: memberJudged rest
end

variable {value operand} {value' : Expr → V}

mutual
/-- A predicate depends on the values of its fields alone. -/
theorem judged_congr : (p : Predicate) → (∀ f ∈ p.fields, value f.expr = value' f.expr) →
    p.judged value operand = p.judged value' operand
  | .compare field comparison right, h => by
    rw [judged, judged, h field (by simp [fields])]
  | .isNull field negated, h => by
    rw [judged, judged, h field (by simp [fields])]
  | .all members, h => congrArg Judgement.all (memberJudged_congr members h)
  | .any members, h => congrArg Judgement.any (memberJudged_congr members h)
  | .not member, h => congrArg Judgement.not (judged_congr member h)
theorem memberJudged_congr : (ps : List Predicate) →
    (∀ f ∈ memberFields ps, value f.expr = value' f.expr) →
      memberJudged value operand ps = memberJudged value' operand ps
  | [], _ => rfl
  | p :: rest, h => by
    obtain ⟨hp, hrest⟩ := List.forall_mem_append.mp h
    rw [memberJudged, memberJudged, judged_congr p hp, memberJudged_congr rest hrest]
end

end Predicate

/-- The slots from `next` on have the values of the literals. -/
def Filled (slot : Slot → V) (operand : Operand → V) (next : Nat) (literals : List Value) : Prop :=
  ∀ i v, literals[i]? = some v → slot (.literal (next + i)) = operand (.literal v)

/-- The slots of the parameters have their values. -/
def Named (slot : Slot → V) (operand : Operand → V) (names : List String) : Prop :=
  ∀ name ∈ names, slot (.named name) = operand (.parameter name)

variable {slot : Slot → V} {operand : Operand → V} {next : Nat}

theorem Filled.append {first rest : List Value} (h : Filled slot operand next (first ++ rest)) :
    Filled slot operand next first ∧ Filled slot operand (next + first.length) rest := by
  constructor
  · intro i v hv
    have hlt : i < first.length := (List.getElem?_eq_some_iff.mp hv).1
    exact h i v (by rwa [List.getElem?_append_left hlt])
  · intro i v hv
    rw [Nat.add_assoc]
    refine h _ v ?_
    rwa [List.getElem?_append_right (Nat.le_add_right _ _), Nat.add_sub_cancel_left]

theorem Named.append {first rest : List String} (h : Named slot operand (first ++ rest)) :
    Named slot operand first ∧ Named slot operand rest :=
  ⟨fun name hname => h name (List.mem_append_left _ hname),
    fun name hname => h name (List.mem_append_right _ hname)⟩

theorem Comparison.judged_test (comparison : Comparison) (field : FieldPath) (right : Slot)
    (value : Expr → V) : (comparison.test field right).judged value slot =
      comparison.judged field (value field.expr) (slot right) := by
  cases comparison with
  | contains =>
    unfold test judged
    dsimp only
    split <;> rfl
  | _ => rfl

theorem Operand.slot_value {right : Operand}
    (hfilled : ∀ v, right = .literal v → slot (.literal next) = operand (.literal v))
    (hnamed : ∀ name, right = .parameter name → slot (.named name) = operand (.parameter name)) :
    slot (right.slot next) = operand right := by
  cases right with
  | literal v => exact hfilled v rfl
  | parameter name => exact hnamed name rfl

namespace Predicate

mutual
/-- The number of the first literal does not matter when the slots are filled accordingly. -/
theorem judged_test {next : Nat} {value : Expr → V} : (p : Predicate) →
    Filled slot operand next p.literals → Named slot operand p.parameters →
      (p.test next).judged value slot = p.judged value operand
  | .compare field comparison right, hfilled, hnamed => by
    rw [test, Comparison.judged_test, judged]
    refine congrArg _ (Operand.slot_value (fun v hv => ?_) fun name hname => ?_)
    · subst hv
      exact hfilled 0 v rfl
    · subst hname
      exact hnamed name (by simp [parameters])
  | .isNull field negated, _, _ => rfl
  | .all members, hfilled, hnamed => congrArg Judgement.all (memberJudged_tests members hfilled hnamed)
  | .any members, hfilled, hnamed => congrArg Judgement.any (memberJudged_tests members hfilled hnamed)
  | .not member, hfilled, hnamed => congrArg Judgement.not (judged_test member hfilled hnamed)
theorem memberJudged_tests {next : Nat} {value : Expr → V} : (ps : List Predicate) →
    Filled slot operand next (memberLiterals ps) → Named slot operand (memberParameters ps) →
      Test.memberJudged value slot (memberTests next ps) = memberJudged value operand ps
  | [], _, _ => rfl
  | p :: rest, hfilled, hnamed => by
    obtain ⟨hfirst, hrest⟩ := hfilled.append
    obtain ⟨hfirst', hrest'⟩ := hnamed.append
    rw [memberTests, Test.memberJudged, memberJudged, judged_test p hfirst hfirst',
      memberJudged_tests rest hrest hrest']
end

end Predicate

/-! ## Stages as nested loops -/

namespace Stage

variable (db : Database V) (topology : Topology) (operand : Operand → V)

/-- The rows that a stage makes of one, before sorting and paging. -/
def rows (b : Bindings V) : Stage → List (Bindings V)
  | filter p => if db.accepts (p.judged (b.eval db) operand) then [b] else []
  | traverse t =>
    match topology.hop t.source t.relationship with
    | .ok hop =>
      (db.reached t.index t.depth.toNat hop.edges (b.value t.from.var)).map (b.set (.step t.index))
    | .error _ => []
  | _ => [b]

/-- Filters and traversals one inside the other. -/
def nested : List Stage → Bindings V → List (Bindings V)
  | [], b => [b]
  | s :: rest, b => (s.rows db topology operand b).flatMap (nested rest)

variable {db topology operand}

/-- The steps of stages have the rows of the stages. -/
theorem stepRows_steps {stages : List Stage} {next : Nat} {made : List Step}
    (h : steps topology next stages = .ok made)
    (hfilled : Filled slot operand next (stages.flatMap literals))
    (hnamed : Named slot operand (stages.flatMap parameters)) (b : Bindings V) :
    stepRows db slot made b = nested db topology operand stages b := by
  induction stages generalizing next made b with
  | nil =>
    obtain rfl := Except.ok.inj h
    rfl
  | cons s rest ih =>
    rw [List.flatMap_cons] at hfilled hnamed
    obtain ⟨hfirst, hrest⟩ := hfilled.append
    obtain ⟨hfirst', hrest'⟩ := hnamed.append
    cases s with
    | filter p =>
      obtain ⟨others, hothers, h⟩ := bind_eq_ok.mp h
      obtain rfl := pure_eq_ok.mp h
      rw [stepRows, nested, Step.rows, rows, Predicate.judged_test p hfirst hfirst']
      exact List.flatMap_congr fun b' _ => ih hothers hrest hrest' b'
    | traverse t =>
      obtain ⟨step, hstep, h⟩ := bind_eq_ok.mp h
      obtain ⟨others, hothers, h⟩ := bind_eq_ok.mp h
      obtain rfl := pure_eq_ok.mp h
      obtain ⟨hop, hhop, hstep⟩ := bind_eq_ok.mp hstep
      obtain rfl := pure_eq_ok.mp hstep
      rw [stepRows, nested, Step.rows, rows, hhop]
      exact List.flatMap_congr fun b' _ => ih hothers hrest hrest' b'
    | _ =>
      simp only [nested, rows, List.flatMap_singleton]
      exact ih h hrest hrest' b

/-- The topology has the hops of the traversals. -/
def Hopped (topology : Topology) (stages : List Stage) : Prop :=
  ∀ t ∈ stages.filterMap traversal?, ∃ hop, topology.hop t.source t.relationship = .ok hop

theorem Hopped.mono {stages others : List Stage} (h : Hopped topology stages)
    (hsub : ∀ s ∈ others, s ∈ stages) : Hopped topology others := by
  intro t ht
  obtain ⟨s, hs, hst⟩ := List.mem_filterMap.mp ht
  exact h t (List.mem_filterMap.mpr ⟨s, hsub s hs, hst⟩)

/-- Stages have steps when the topology has their hops. -/
theorem steps_of_hopped {stages : List Stage} (h : Hopped topology stages) (next : Nat) :
    ∃ made, steps topology next stages = .ok made := by
  induction stages generalizing next with
  | nil => exact ⟨[], rfl⟩
  | cons s rest ih =>
    have hrest : Hopped topology rest := h.mono fun s' => List.mem_cons_of_mem s
    cases s with
    | filter p =>
      obtain ⟨made, hmade⟩ := ih hrest (next + p.literals.length)
      exact ⟨_, bind_eq_ok.mpr ⟨made, hmade, rfl⟩⟩
    | traverse t =>
      obtain ⟨hop, hhop⟩ := h t (List.mem_filterMap.mpr ⟨_, List.mem_cons_self, rfl⟩)
      obtain ⟨made, hmade⟩ := ih hrest next
      have hstep : t.step topology = .ok (.traverse t.index t.depth.toNat t.from.var hop.edges) :=
        bind_eq_ok.mpr ⟨hop, hhop, rfl⟩
      exact ⟨_, bind_eq_ok.mpr ⟨_, hstep, bind_eq_ok.mpr ⟨made, hmade, rfl⟩⟩⟩
    | _ => exact ih hrest next

end Stage

/-! ## The slots of a statement -/

namespace Aql.Slot

theorem literal_name_inj {i j : Nat} (h : (literal i).name = (literal j).name) : i = j :=
  Nat.repr_injective ((String.append_right_inj "lit").mp h)

/-- The name of a literal is not one that a parameter may have. -/
theorem isLiteralName_literal (n : Nat) : isLiteralName (literal n).name = true := by
  have hdigits : ∀ c ∈ Nat.toDigits 10 n, Text.isDigit c = true := by
    intro c hc
    exact Text.isDigit_of_isDigit (Nat.isDigit_of_mem_toDigits (by decide) (by decide) hc)
  have hne : Nat.toDigits 10 n ≠ [] := Nat.toDigits_ne_nil
  have hlist : (literal n).name.toList = 'l' :: 'i' :: 't' :: Nat.toDigits 10 n := by
    simp [name, Nat.repr]
  rw [isLiteralName, hlist]
  simpa [hne] using hdigits

theorem literal_name_ne {name : String} (h : isParameterName name = true) (n : Nat) :
    (literal n).name ≠ name := by
  rintro rfl
  rw [isParameterName, isLiteralName_literal] at h
  simp at h

end Aql.Slot

/-! ## The bind variables of a statement -/

theorem keys_literalValues (values : List Value) :
    Dict.keys ((literalValues values).map fun v => (v.1.name, v.2)) =
      (List.range values.length).map fun i => (Slot.literal i).name := by
  apply List.ext_getElem (by simp [Dict.keys, literalValues])
  intro i _ _
  simp only [Dict.keys, literalValues, List.getElem_map, List.getElem_mapIdx, List.getElem_range]

theorem literalValues_keys_nodup (values : List Value) :
    (Dict.keys ((literalValues values).map fun v => (v.1.name, v.2))).Nodup := by
  rw [keys_literalValues]
  exact List.nodup_range.map fun _ _ => Slot.literal_name_inj

namespace Statement

variable {db : Database V} {given : String → V} {command : Command} {values : List Value}

/-- The bind variable of a literal holds its own value. -/
theorem find?_literalValues {i : Nat} {v : Value} (h : values[i]? = some v) :
    Dict.find? (closed command (literalValues values)).bindVars (Slot.literal i).name =
      some v.toJson := by
  have hkeys := literalValues_keys_nodup values
  have hentry : ((Slot.literal i).name, v.toJson) ∈
      (literalValues values).map fun v => (v.1.name, v.2) := by
    refine List.mem_map.mpr ⟨(.literal i, v.toJson), ?_, rfl⟩
    exact List.mem_mapIdx.mpr ⟨i, (List.getElem?_eq_some_iff.mp h).1, by
      rw [(List.getElem?_eq_some_iff.mp h).2]⟩
  rw [closed, Dict.find?_ofEntries hkeys, (Dict.find?_eq_some_iff hkeys).mpr hentry]

/-- A literal has its own value in a statement. -/
theorem slotValue_literal {i : Nat} {v : Value} (h : values[i]? = some v) :
    (closed command (literalValues values)).slotValue db given (.literal i) =
      db.literal v.toJson := by
  rw [slotValue, find?_literalValues h]

/-- A parameter has the value that is given for it. -/
theorem slotValue_named {name : String} (h : isParameterName name = true) :
    (closed command (literalValues values)).slotValue db given (.named name) = given name := by
  have hnone : Dict.find? ((literalValues values).map fun v => (v.1.name, v.2))
      (Slot.named name).name = none := by
    rw [Dict.find?_eq_none_iff, keys_literalValues]
    intro hmem
    obtain ⟨i, -, hname⟩ := List.mem_map.mp hmem
    exact Slot.literal_name_ne h i hname
  rw [slotValue, closed, Dict.find?_ofEntries (literalValues_keys_nodup values), hnone]
  rfl

/-- The slots of a statement have the values of its literals. -/
theorem filled_literals :
    Filled ((closed command (literalValues values)).slotValue db given) (Operand.value db given)
      0 values := by
  intro i v hv
  rw [Nat.zero_add]
  exact slotValue_literal hv

/-- The slots of a statement have the values that are given for the parameters. -/
theorem named_parameters {stages : List Stage}
    (h : ∀ s ∈ stages, ∀ name ∈ s.parameters, isParameterName name = true) :
    Named ((closed command (literalValues values)).slotValue db given) (Operand.value db given)
      (stages.flatMap Stage.parameters) := by
  intro name hname
  obtain ⟨s, hs, hmem⟩ := List.mem_flatMap.mp hname
  exact slotValue_named (h s hs name hmem)

end Statement

end GraphMapper
