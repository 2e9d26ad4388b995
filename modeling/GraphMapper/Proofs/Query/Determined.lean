import GraphMapper.Proofs.Query.Names

/-!
# Paths, fields and texts

In one query a path, its field and the text of its expression determine each other
(`Query.Unambiguous`). A field is what its path is read as, so equal paths have one field. The other way
round, the variable in an expression says which relations the path crosses, because no two scopes have
one route, and the names behind the variable say how the path ends (`Entity.Ends.segments_eq`). A text
can be taken apart again at its dots: neither variables nor names hold any, in backticks or not.

A statement finds projected fields and groups by their paths, and columns by their expressions. All of
this tells exactly the different fields apart.
-/

namespace GraphMapper

open Outcome Aql

/-- Lists are told apart by what tells their members apart. -/
theorem eq_of_map_eq {α β : Type} {f : α → β} {as bs : List α}
    (hinj : ∀ a ∈ as, ∀ b ∈ bs, f a = f b → a = b) (h : as.map f = bs.map f) : as = bs := by
  induction as generalizing bs with
  | nil => exact (List.map_eq_nil_iff.mp h.symm).symm
  | cons a rest ih =>
    cases bs with
    | nil => cases h
    | cons b others =>
      obtain ⟨hhead, htail⟩ := List.cons.inj h
      have hrest := ih (fun a ha b hb => hinj a (List.mem_cons_of_mem _ ha) b
        (List.mem_cons_of_mem _ hb)) htail
      rw [hinj a List.mem_cons_self b List.mem_cons_self hhead, hrest]

/-- A value is found where its image is found, if no other value has the image. -/
theorem findIdx?_eq_idxOf? {α β : Type} [DecidableEq α] [DecidableEq β] {f : α → β} {as : List α}
    {x : α} (hinj : ∀ a ∈ as, f a = f x → a = x) :
    (as.findIdx? fun a => f a == f x) = as.idxOf? x := by
  induction as with
  | nil => rfl
  | cons a rest ih =>
    obtain ⟨hhead, htail⟩ := List.forall_mem_cons.mp hinj
    have hsame : (f a == f x) = (a == x) := by
      rw [Bool.eq_iff_iff, beq_iff_eq, beq_iff_eq]
      exact ⟨hhead, congrArg f⟩
    rw [List.findIdx?_cons, List.idxOf?_cons, hsame, ih htail]

/-! ## Texts of expressions -/

theorem Scope.var_injective {scope scope' : Scope} (h : scope.var = scope'.var) : scope = scope' := by
  cases scope <;> cases scope' <;> simp_all [Scope.var]

/-- The text of the variable of a scope. -/
def Scope.text (scope : Scope) : List Char := charsOf scope.var.lexemes

theorem Scope.text_traversal (index : Nat) :
    (traversal index).text = 't' :: (toString index).toList := by
  simp [text, charsOf, var, Var.lexemes, Lexeme.text, Head.text]

theorem Scope.text_injective {scope scope' : Scope} (h : scope.text = scope'.text) :
    scope = scope' := by
  cases scope with
  | root =>
    cases scope' with
    | root => rfl
    | traversal index =>
      rw [text_traversal] at h
      cases (List.cons.inj h).1
  | traversal index =>
    cases scope' with
    | root =>
      rw [text_traversal] at h
      cases (List.cons.inj h).1
    | traversal index' =>
      rw [text_traversal, text_traversal] at h
      have hdigits : toString index = toString index' := String.toList_inj.mp (List.cons.inj h).2
      rw [Nat.repr_injective hdigits]

theorem Scope.dot_not_mem_text (scope : Scope) : '.' ∉ scope.text := by
  cases scope with
  | root => decide
  | traversal index =>
    rw [text_traversal]
    intro hmem
    rcases List.mem_cons.mp hmem with hhead | hdigit
    · cases hhead
    · exact absurd (Text.isDigit_of_mem_toString hdigit) (by decide)

/-- How an attribute shows in a text. -/
def attributeText (name : String) : List Char := (attributeName name).text.toList

theorem attributeText_cases (name : String) :
    attributeText name = name.toList ∨ attributeText name = '`' :: name.toList ++ ['`'] := by
  unfold attributeText attributeName
  split
  · right
    simp [Lexeme.text]
  · exact Or.inl rfl

section

variable {name name' : String} (h : Text.isIdentifier name = true)
include h

theorem dot_not_mem_attributeText : '.' ∉ attributeText name := by
  have hdot := Text.not_mem_of_isIdentifier h (c := '.') (by decide)
  rcases attributeText_cases name with heq | heq
  · exact heq ▸ hdot
  · simpa [heq] using hdot

/-- Names show in different ways, since none begins with the mark that stands around some. -/
theorem attributeText_injective (h' : Text.isIdentifier name' = true)
    (heq : attributeText name = attributeText name') : name = name' := by
  have htick := Text.not_mem_of_isIdentifier h (c := '`') (by decide)
  have htick' := Text.not_mem_of_isIdentifier h' (c := '`') (by decide)
  rw [← String.toList_inj]
  rcases attributeText_cases name with hname | hname <;>
    rcases attributeText_cases name' with hname' | hname' <;> rw [hname, hname'] at heq
  · exact heq
  · exact absurd (heq ▸ List.mem_cons_self) htick
  · exact absurd (heq ▸ List.mem_cons_self) htick'
  · exact List.append_cancel_right (List.cons.inj heq).2

end

/-- The text of a field is that of its variable and its names, with dots between them. -/
theorem toList_textOf_field (scope : Scope) (names : List String) :
    (textOf (Expr.field scope.var names).lexemes).toList =
      ['.'].intercalate (scope.text :: names.map attributeText) := by
  have hnames : ∀ first : List Char,
      first ++ charsOf (names.flatMap fun s => [.mark .dot, attributeName s]) =
        ['.'].intercalate (first :: names.map attributeText) := by
    induction names with
    | nil =>
      intro first
      rw [List.flatMap_nil, List.map_nil, List.intercalate_singleton]
      exact List.append_nil first
    | cons name rest ih =>
      intro first
      have hcons : charsOf ((name :: rest).flatMap fun s => [.mark .dot, attributeName s]) =
          '.' :: (attributeText name ++
            charsOf (rest.flatMap fun s => [.mark .dot, attributeName s])) := by
        rw [List.flatMap_cons, charsOf, List.flatMap_append]
        simp [attributeText, charsOf, Lexeme.text, Mark.text]
      rw [hcons, ih, List.map_cons, List.intercalate_cons_cons, List.append_assoc,
        List.singleton_append]
  rw [toList_textOf, Expr.lexemes, charsOf, List.flatMap_append]
  exact hnames scope.text

/-- A text is that of one variable and of one list of names. -/
theorem eq_of_textOf_field {scope scope' : Scope} {names names' : List String}
    (h : ∀ name ∈ names, Text.isIdentifier name = true)
    (h' : ∀ name ∈ names', Text.isIdentifier name = true)
    (heq : textOf (Expr.field scope.var names).lexemes =
      textOf (Expr.field scope'.var names').lexemes) : scope = scope' ∧ names = names' := by
  have hpieces : ∀ (scope : Scope) (names : List String),
      (∀ name ∈ names, Text.isIdentifier name = true) →
        Text.splitChars '.' (textOf (Expr.field scope.var names).lexemes).toList =
          scope.text :: names.map attributeText := by
    intro scope names hnames
    rw [toList_textOf_field, Text.splitChars_intercalate (List.cons_ne_nil _ _)]
    refine List.forall_mem_cons.mpr ⟨scope.dot_not_mem_text, ?_⟩
    exact List.forall_mem_map.mpr fun name hname => dot_not_mem_attributeText (hnames name hname)
  have hsplit := hpieces scope names h
  rw [heq, hpieces scope' names' h'] at hsplit
  obtain ⟨hscope, hnames⟩ := List.cons.inj hsplit
  refine ⟨(Scope.text_injective hscope).symm, ?_⟩
  refine eq_of_map_eq (fun name hname name' hname' => ?_) hnames.symm
  exact attributeText_injective (h name hname) (h' name' hname')

/-! ## Fields of one draft -/

namespace Draft

variable {m : Mapper} {d : Draft} {f g : FieldPath}

section

variable (hm : m.Resolved) (hd : Built m d) (hf : d.Locates m f) (hg : d.Locates m g)
include hm hd hf hg

/-- A path has one field in a draft. -/
theorem Locates.eq_of_path (h : f.path = g.path) : f = g := by
  obtain ⟨chain, e, hreading, hentity, hreads, hroute⟩ := hf
  obtain ⟨chain', e', hreading', hentity', hreads', hroute'⟩ := hg
  rw [← h] at hreading'
  obtain ⟨rfl, rfl, hattribute⟩ := hreading.unique hm hreading'
  have hscope := hd.route_injective hreads hreads' (hroute.trans hroute'.symm)
  have hsame := hentity.trans hentity'.symm
  cases f
  cases g
  simp_all

/-- An expression says which path it was resolved from. -/
theorem Locates.eq_of_expr (h : f.expr = g.expr) : f = g := by
  have hpath : f.path = g.path := by
    obtain ⟨hvar, hnames⟩ := Expr.field.inj h
    obtain ⟨chain, e, hreading, -, hreads, hroute⟩ := hf
    obtain ⟨chain', e', hreading', -, hreads', hroute'⟩ := hg
    -- one variable means one scope, and so one chain of relations
    have hchain : chain = chain' := by
      rw [Scope.var_injective hvar, hroute'] at hroute
      exact (List.reverse_injective hroute).symm
    obtain ⟨_, last, hlookup, hends, hsplit⟩ := hreading.exists_ends
    obtain ⟨_, last', hlookup', hends', hsplit'⟩ := hreading'.exists_ends
    have hlast : last = last' := by
      rw [hends.segments_eq (hm.valid_lookup hlookup), hends'.segments_eq (hm.valid_lookup hlookup'),
        hnames]
    rw [← Text.intercalate_split f.path, ← Text.intercalate_split g.path, hsplit, hsplit', hchain,
      hlast]
  exact hf.eq_of_path hm hd hg hpath

/-- A text says which path it was resolved from. -/
theorem Locates.eq_of_text (h : textOf f.expr.lexemes = textOf g.expr.lexemes) : f = g := by
  obtain ⟨hscope, hnames⟩ := eq_of_textOf_field (hf.named hm).segments_expr
    (hg.named hm).segments_expr h
  exact hf.eq_of_expr hm hd hg (congrArg₂ Expr.field (congrArg Scope.var hscope) hnames)

end

end Draft

/-! ## Projected fields -/

namespace Outline

theorem addFields_paths_nodup {fields fs : List FieldPath} (h : (fields.map (·.path)).Nodup) :
    ((addFields fields fs).map (·.path)).Nodup := by
  induction fs generalizing fields with
  | nil => exact h
  | cons f rest ih =>
    rw [addFields]
    split
    · exact ih h
    · next hnew =>
      apply ih
      rw [List.map_append, List.nodup_append]
      refine ⟨h, List.nodup_singleton _, ?_⟩
      rintro path hpath _ hlast rfl
      obtain ⟨g, hg, rfl⟩ := List.mem_map.mp hpath
      exact hnew (List.any_eq_true.mpr ⟨g, hg, by simpa using hlast⟩)

theorem isPrefix_addFields (fields fs : List FieldPath) : fields <+: addFields fields fs := by
  induction fs generalizing fields with
  | nil => exact List.prefix_rfl
  | cons f rest ih =>
    rw [addFields]
    split
    · exact ih fields
    · exact (List.prefix_append _ _).trans (ih _)

theorem exists_path_addFields {fields fs : List FieldPath} {f : FieldPath} (h : f ∈ fs) :
    ∃ g ∈ addFields fields fs, g.path = f.path := by
  induction fs generalizing fields with
  | nil => cases h
  | cons f' rest ih =>
    rw [addFields]
    rcases List.mem_cons.mp h with rfl | h
    · split
      · next hthere =>
        obtain ⟨g, hg, heq⟩ := List.any_eq_true.mp hthere
        exact ⟨g, (isPrefix_addFields _ _).subset hg, beq_iff_eq.mp heq⟩
      · exact ⟨f, (isPrefix_addFields _ _).subset (by simp), rfl⟩
    · exact ih h

end Outline

theorem Stage.projected_subset (s : Stage) {f : FieldPath} (hf : f ∈ s.projected) :
    f ∈ s.fields := by
  cases s with
  | project fields => exact hf
  | _ => cases hf

/-! ## Queries -/

/-- The fields that the stages of a query read. -/
def Query.fields (q : Query) : List FieldPath := q.stages.flatMap Stage.fields

/-- Whichever of its path, its expression and its text a field is known by, it is told apart from the
same other fields. -/
structure Query.Unambiguous (q : Query) : Prop where
  field : ∀ f ∈ q.fields, ∀ g ∈ q.fields, f.path = g.path → f = g
  text : ∀ f ∈ q.fields, ∀ g ∈ q.fields,
    f.path = g.path ↔ textOf f.expr.lexemes = textOf g.expr.lexemes
  /-- What is projected once for each path is projected once for each field. -/
  projection : ∀ o, Outline.ofQuery q = .ok o →
    o.projection.Nodup ∧ ∀ f, f ∈ o.projection ↔ ∃ s ∈ q.stages, f ∈ s.projected
  groups : ∀ a b, .aggregate a ∈ q.stages → .aggregate b ∈ q.stages →
    (a.groupBy.map (·.path) = b.groupBy.map (·.path) ↔ a.groupBy = b.groupBy)
  /-- The group of a path is the group of the field. -/
  group : ∀ a, .aggregate a ∈ q.stages → ∀ f ∈ q.fields,
    (a.groupBy.findIdx? fun g => g.path == f.path) = a.groupBy.idxOf? f
  /-- The column of a text is the column of the expression. -/
  column : ∀ f ∈ q.fields, (q.columns.findIdx? fun e => textOf e.lexemes == textOf f.expr.lexemes) =
    q.columns.idxOf? f.expr
  /-- Different fields are different columns. -/
  columnOr : ∀ joined, ∀ f ∈ q.fields, ∀ g ∈ q.fields,
    columnOr (q.columnsOf joined) f = columnOr (q.columnsOf joined) g ↔ f = g

/-- An expression of a field is a column at one place at most. -/
theorem columnOr_injective {columns : List Expr} {f g : FieldPath}
    (h : columnOr columns f = columnOr columns g) : f.expr = g.expr := by
  rcases columnOr_cases columns f with ⟨n, hn, hf⟩ | ⟨-, hf⟩ <;>
    rcases columnOr_cases columns g with ⟨n', hn', hg⟩ | ⟨-, hg⟩ <;> rw [hf, hg] at h
  · rw [Expr.column.inj h, hn'] at hn
    exact (Option.some.inj hn).symm
  · cases h
  · cases h
  · exact h

namespace Query

variable {q : Query}

theorem mem_fields_of_groupBy {a : Aggregation} (ha : .aggregate a ∈ q.stages) :
    ∀ g ∈ a.groupBy, g ∈ q.fields :=
  fun _ hg => List.mem_flatMap.mpr ⟨_, ha, List.mem_append_left _ hg⟩

theorem mem_fields_of_projected {f : FieldPath} (hf : f ∈ q.stages.flatMap Stage.projected) :
    f ∈ q.fields := by
  obtain ⟨s, hs, hf⟩ := List.mem_flatMap.mp hf
  exact List.mem_flatMap.mpr ⟨s, hs, s.projected_subset hf⟩

theorem exists_field_of_column {e : Expr} (he : e ∈ q.columns) : ∃ f ∈ q.fields, f.expr = e := by
  obtain ⟨f, hf, -, rfl⟩ := mem_columns.mp he
  obtain ⟨s, hs, hf⟩ := List.mem_flatMap.mp hf
  exact ⟨f, List.mem_flatMap.mpr ⟨s, hs, s.laterFields_subset hf⟩, rfl⟩

/-- Where a path has one field, every projected field is in the outline, once. -/
theorem projection_of_paths (hpath : ∀ f ∈ q.fields, ∀ g ∈ q.fields, f.path = g.path → f = g)
    {o : Outline} (ho : Outline.ofQuery q = .ok o) :
    o.projection.Nodup ∧ ∀ f, f ∈ o.projection ↔ ∃ s ∈ q.stages, f ∈ s.projected := by
  rw [Outline.projection_ofQuery ho]
  have hnone : (([] : List FieldPath).map (·.path)).Nodup := List.nodup_nil
  refine ⟨(Outline.addFields_paths_nodup hnone).of_map _, fun f => ?_⟩
  rw [← List.mem_flatMap]
  constructor
  · intro hf
    exact (Outline.mem_addFields hf).resolve_left List.not_mem_nil
  · intro hf
    -- a field of the path is in the outline, and the path has no other one
    obtain ⟨g, hg, heq⟩ : ∃ g ∈ Outline.addFields [] _, g.path = f.path :=
      Outline.exists_path_addFields hf
    have hprojected := (Outline.mem_addFields hg).resolve_left List.not_mem_nil
    have hsame := hpath g (mem_fields_of_projected hprojected) f (mem_fields_of_projected hf) heq
    exact hsame ▸ hg

end Query

/-- In a built query the path, the expression and the text of a field determine each other, and so the
statement takes no field for another one. -/
theorem Mapper.Resolved.query_unambiguous {m : Mapper} (hm : m.Resolved) {entity : String}
    {ops : List Operation} {q : Query} (hq : m.query entity ops = .ok q) : q.Unambiguous := by
  obtain ⟨d, hd, -, rfl, hall⟩ := hm.query_locates hq
  have hlocated : ∀ f ∈ d.query.fields, d.Locates m f := by
    intro f hf
    obtain ⟨s, hs, hf⟩ := List.mem_flatMap.mp hf
    exact hall s hs f hf
  have hpath : ∀ f ∈ d.query.fields, ∀ g ∈ d.query.fields, f.path = g.path → f = g :=
    fun f hf g hg => (hlocated f hf).eq_of_path hm hd (hlocated g hg)
  have htext : ∀ f ∈ d.query.fields, ∀ g ∈ d.query.fields,
      textOf f.expr.lexemes = textOf g.expr.lexemes → f = g :=
    fun f hf g hg => (hlocated f hf).eq_of_text hm hd (hlocated g hg)
  constructor
  case field => exact hpath
  case text =>
    intro f hf g hg
    exact ⟨fun h => by rw [hpath f hf g hg h], fun h => by rw [htext f hf g hg h]⟩
  case projection => exact fun o => Query.projection_of_paths hpath
  case groups =>
    intro a b ha hb
    refine ⟨fun h => ?_, congrArg _⟩
    exact eq_of_map_eq (fun f hf g hg => hpath f (Query.mem_fields_of_groupBy ha f hf) g
      (Query.mem_fields_of_groupBy hb g hg)) h
  case group =>
    intro a ha f hf
    exact findIdx?_eq_idxOf? fun g hg => hpath g (Query.mem_fields_of_groupBy ha g hg) f hf
  case column =>
    intro f hf
    apply findIdx?_eq_idxOf? (f := fun e : Expr => textOf e.lexemes)
    intro e he heq
    obtain ⟨g, hg, rfl⟩ := Query.exists_field_of_column he
    rw [htext g hg f hf heq]
  case columnOr =>
    intro joined f hf g hg
    refine ⟨fun h => htext f hf g hg ?_, fun h => by rw [h]⟩
    rw [columnOr_injective h]

/-- Accounts and their keys, asked for twice: by way of their owners, and in a condition. -/
theorem Mapper.query_unambiguous_accounts :
    let ops := [.filter (.not (.any [.isNull "accounts.id" false,
        .compare "accounts.owner.age" .lessThan (.literal (.int 18))])),
      .order ["accounts.owner.age", "id"] .ascending,
      .project ["accounts", "accounts.id", "id", "accounts.owner.accounts.id"],
      .project ["accounts.id"]]
    ∃ q, Bank.mapper.query "Person" ops = .ok q ∧ q.Unambiguous := by
  intro ops
  have hquery : (Bank.mapper.query "Person" ops).isOk = true := by decide +kernel
  obtain ⟨q, hq⟩ := exists_of_isOk hquery
  exact ⟨q, hq, Bank.mapper_resolved.query_unambiguous hq⟩

end GraphMapper
