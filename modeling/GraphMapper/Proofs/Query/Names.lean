import GraphMapper.Proofs.Query.Sources

/-!
# Names in the statement of a query

Every name in the statement of a query is an identifier in one of four roles: a collection, a segment
of an attribute, a parameter, or a part of a key (`Aql.Lexeme.Placed`). Whatever strings the
operations had, what they leave in the text are these names, with no character but letters, digits,
underscores and the dots of keys (`Mapper.statement_contained`).
-/

namespace GraphMapper

open Outcome Aql

/-! ## Names of a query -/

/-- The names of a query are identifiers, also those in its paths, and no parameter is named like a
literal. -/
structure Query.Named (q : Query) : Prop where
  collection : Text.isIdentifier q.collection = true
  fields : ∀ s ∈ q.stages, ∀ f ∈ s.fields, f.Named
  inclusions : ∀ i ∈ q.inclusions, Text.isIdentifier i.relationship = true
  parameters : ∀ name ∈ q.parameters, isParameterName name = true

theorem isIdentifier_of_isParameterName {name : String} (h : isParameterName name = true) :
    Text.isIdentifier name = true := by
  rw [isParameterName, Bool.and_eq_true] at h
  exact h.1

theorem Mapper.Resolved.query_named {m : Mapper} (hm : m.Resolved) {entity : String}
    {ops : List Operation} {q : Query} (h : m.query entity ops = .ok q) : q.Named := by
  obtain ⟨d, hd, -, rfl, hfields⟩ := hm.query_locates h
  obtain ⟨e, hlookup, hcollection⟩ := hd.collection
  constructor
  case collection =>
    have hname := hm.isIdentifier_lookup hlookup
    rwa [hcollection] at hname
  case fields =>
    intro s hs f hf
    exact (hfields s hs f hf).named hm
  case inclusions =>
    intro i hi
    obtain ⟨hop, hhop⟩ := hd.inclusion hi
    exact hm.isIdentifier_hop hhop
  case parameters =>
    intro name hname
    rw [Query.parameters, mem_sortDistinct] at hname
    obtain ⟨s, hs, hname⟩ := List.mem_flatMap.mp hname
    exact hd.parameters s hs name hname

section

variable {m : Mapper} {q : Query} (hm : m.Resolved) (hq : q.Named)

/-! ## Parts -/

theorem Aql.isKey_of_isIdentifier {name : String} (h : Text.isIdentifier name = true) :
    IsKey name := by
  have hkey : IsKey (".".intercalate [name]) :=
    .dotted (List.cons_ne_nil _ _) (List.forall_mem_singleton.mpr h)
  exact hkey

theorem FieldPath.Named.isKey {f : FieldPath} (hf : f.Named) : IsKey f.path :=
  Text.intercalate_split f.path ▸ .dotted (Text.split_ne_nil _ _) hf.path

theorem FieldPath.Named.isKey_total {f : FieldPath} (hf : f.Named) (function : Function) :
    IsKey (function.resultKey f.path) :=
  Text.intercalate_split f.path ▸ .total function (Text.split_ne_nil _ _) hf.path

theorem FieldPath.Named.segments_expr {f : FieldPath} (hf : f.Named) :
    ∀ segment ∈ f.expr.segments, Text.isIdentifier segment = true := by
  unfold FieldPath.expr
  cases hattribute : f.attribute? with
  | none => simp [Expr.segments]
  | some a => exact hf.segments a hattribute

include hm hq in
/-- What a query names is contained. -/
theorem Aql.Part.From.contained {p : Part} (h : p.From m q) : p.Contained := by
  cases h with
  | var v => exact .var v
  | bare v => exact .expr (by simp [Expr.segments])
  | column n => exact .expr (by simp [Expr.segments])
  | field hs hf => exact .expr (hq.fields _ hs _ hf).segments_expr
  | root => exact .collection hq.collection
  | edges hhop hentry =>
    obtain ⟨l, hl, hname⟩ := hm.link_of_edgeCollections hhop hentry
    exact .collection (hname ▸ hm.isIdentifier_link hl)
  | inclusion hi => exact .key (isKey_of_isIdentifier (hq.inclusions _ hi))
  | path hs hf => exact .key (hq.fields _ hs _ hf).isKey
  | total function hs hf => exact .key ((hq.fields _ hs _ hf).isKey_total function)

include hm hq in
/-- All parts of the statement of a query are contained. -/
theorem Mapper.statement_parts_contained {st : Statement} (h : m.statement q = .ok st) :
    ∀ p ∈ st.command.parts, p.Contained := by
  obtain ⟨names, hshows, hnames⟩ := statement_shows h
  intro p hp
  cases hslot : p.slot? with
  | none => exact (hshows.sources p hp hslot).contained hm hq
  | some s =>
    obtain rfl := Part.eq_of_slot?_eq_some hslot
    cases s with
    | literal n => exact .literal n
    | named name =>
      have hname := (hnames name).mp (hshows.mem_of_named hp)
      exact .named (isIdentifier_of_isParameterName (hq.parameters name hname))

/-! ## Lexemes -/

/-- A lexeme in the statement of a query: a fixed word, head or mark, a number, or a name in one of
its roles. -/
inductive Aql.Lexeme.Placed (m : Mapper) (q : Query) : Lexeme → Prop
  | word (w : Word) : Placed m q (.word w)
  | head (h : Head) : Placed m q (.head h)
  | mark (k : Mark) : Placed m q (.mark k)
  | number (n : Nat) : Placed m q (.number n)
  | root : Text.isIdentifier q.collection = true → Placed m q (.name q.collection)
  | edges {l : Link} : l ∈ m.topology.links → Text.isIdentifier l.collection = true →
      Placed m q (.name l.collection)
  | attribute {s : Stage} {f : FieldPath} {a : AttributePath} {segment : String} :
      s ∈ q.stages → f ∈ s.fields → f.attribute? = some a → segment ∈ a.segments →
      Text.isIdentifier segment = true → Placed m q (attributeName segment)
  | parameter {name : String} : name ∈ q.parameters → Text.isIdentifier name = true →
      Placed m q (.name name)
  | key {name : String} : IsKey name → Placed m q (.key name)

theorem Aql.Lexeme.Placed.of_isName {l : Lexeme} (h : l.isName = false) : l.Placed m q := by
  cases l with
  | word w => exact .word w
  | head head => exact .head head
  | mark k => exact .mark k
  | number n => exact .number n
  | _ => cases h

theorem Aql.Var.lexemes_placed (v : Var) : ∀ l ∈ v.lexemes, l.Placed m q := by
  have hfixed : ∀ l ∈ v.lexemes, l.isName = false := by cases v <;> simp [lexemes, Lexeme.isName]
  exact fun l hl => .of_isName (hfixed l hl)

include hq in
theorem FieldPath.expr_placed {s : Stage} {f : FieldPath} (hs : s ∈ q.stages) (hf : f ∈ s.fields) :
    ∀ l ∈ f.expr.lexemes, l.Placed m q := by
  have hsegments : ∀ a ∈ f.attribute?, ∀ segment ∈ a.segments, Text.isIdentifier segment = true :=
    (hq.fields s hs f hf).segments
  refine List.forall_mem_append.mpr ⟨f.scope.var.lexemes_placed, fun l hl => ?_⟩
  obtain ⟨segment, hsegment, hl⟩ := List.mem_flatMap.mp hl
  cases hattribute : f.attribute? with
  | none =>
    rw [hattribute] at hsegment
    cases hsegment
  | some a =>
    rw [hattribute] at hsegment
    rcases List.mem_pair.mp hl with rfl | rfl
    · exact .mark .dot
    · exact .attribute hs hf hattribute hsegment (hsegments a hattribute segment hsegment)

include hm hq in
theorem Aql.Part.From.placed {p : Part} (h : p.From m q) : ∀ l ∈ p.lexemes, l.Placed m q := by
  cases h with
  | var v => exact v.lexemes_placed
  | bare v => exact List.forall_mem_append.mpr ⟨v.lexemes_placed, by simp⟩
  | column n =>
    have hcolumn : ∀ l ∈ (Expr.column n).lexemes, l.isName = false := by
      simp [Expr.lexemes, Var.lexemes, columnLexemes, Lexeme.isName]
    exact fun l hl => .of_isName (hcolumn l hl)
  | field hs hf => exact FieldPath.expr_placed hq hs hf
  | root => exact List.forall_mem_singleton.mpr (.root hq.collection)
  | edges hhop hentry =>
    obtain ⟨l, hl, hname⟩ := hm.link_of_edgeCollections hhop hentry
    exact List.forall_mem_singleton.mpr (hname ▸ .edges hl (hm.isIdentifier_link hl))
  | inclusion hi =>
    exact List.forall_mem_singleton.mpr (.key (isKey_of_isIdentifier (hq.inclusions _ hi)))
  | path hs hf => exact List.forall_mem_singleton.mpr (.key (hq.fields _ hs _ hf).isKey)
  | total function hs hf =>
    exact List.forall_mem_singleton.mpr (.key ((hq.fields _ hs _ hf).isKey_total function))

/-- A slot shows a number or the name of a parameter. -/
theorem Aql.Slot.lexemes_placed {slot : Slot}
    (h : ∀ name, slot = .named name → name ∈ q.parameters ∧ Text.isIdentifier name = true) :
    ∀ l ∈ slot.lexemes, l.Placed m q := by
  cases slot with
  | literal n => simp [lexemes, Lexeme.Placed.mark, Lexeme.Placed.head, Lexeme.Placed.number]
  | named name =>
    obtain ⟨hparameter, hname⟩ := h name rfl
    simp [lexemes, Lexeme.Placed.mark, Lexeme.Placed.parameter hparameter hname]

end

/-- Each lexeme in the text of the statement of a query is a fixed word, head or mark, a number, or
a name in one of its roles that is an identifier or a key of identifiers. What is not fixed holds
letters, digits, underscores and dots alone, and stands bare or between the backticks or quotes of
its lexeme. -/
theorem Mapper.statement_contained {m : Mapper} (hm : m.Resolved) {entity : String}
    {ops : List Operation} {q : Query} {st : Statement} (hq : m.query entity ops = .ok q)
    (h : m.statement q = .ok st) :
    st.query = textOf st.command.lexemes ∧
      ∀ l ∈ st.command.lexemes, l.Placed m q ∧ l.IsContained := by
  have hnamed := hm.query_named hq
  have hcontained := statement_parts_contained hm hnamed h
  obtain ⟨names, hshows, hnames⟩ := statement_shows h
  refine ⟨rfl, fun l hl => ⟨?_, Command.lexemes_contained hcontained l hl⟩⟩
  cases hname : l.isName with
  | false => exact .of_isName hname
  | true =>
    obtain ⟨p, hp, hl⟩ := Command.mem_lexemes hl hname
    -- A part is a slot, which shows a parameter, or has a name of the query or of a link.
    cases hslot : p.slot? with
    | none => exact (hshows.sources p hp hslot).placed hm hnamed l hl
    | some slot =>
      obtain rfl := Part.eq_of_slot?_eq_some hslot
      refine Slot.lexemes_placed (fun name heq => ?_) l hl
      have hparameter := (hnames name).mp (hshows.mem_of_named (heq ▸ hp))
      exact ⟨hparameter, isIdentifier_of_isParameterName (hnamed.parameters name hparameter)⟩

/-- The ages of persons whose accounts have certain balances and keys that start with a text. -/
theorem Mapper.statement_contained_ages :
    let ops := [.filter (.all [.compare "accounts.balance" .isIn (.parameter "wanted"),
        .compare "accounts.id" .startsWith (.literal (.string "\" REMOVE"))]),
      .aggregate "Count" "id" ["age"]]
    ∃ q st, Bank.mapper.query "Person" ops = .ok q ∧ Bank.mapper.statement q = .ok st ∧
      st.query = textOf st.command.lexemes ∧
      ∀ l ∈ st.command.lexemes, l.Placed Bank.mapper q ∧ l.IsContained := by
  intro ops
  have hok : (Bank.mapper.query "Person" ops >>= Bank.mapper.statement).isOk = true := by
    decide +kernel
  obtain ⟨st, hst⟩ := exists_of_isOk hok
  obtain ⟨q, hq, hst⟩ := bind_eq_ok.mp hst
  exact ⟨q, st, hq, hst, statement_contained Bank.mapper_resolved hq hst⟩

end GraphMapper
