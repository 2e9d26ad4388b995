import GraphMapper.Proofs.Query.Routes
import GraphMapper.Proofs.Relation.Names

/-!
# The language of paths

A path is read as a chain of relations and an end at the entity that they lead to (`Mapper.Reading`).
No name of an entity has two roles, so there is one reading at most (`Mapper.Reading.unique`), and
resolving finds it: a path resolves just when it can be read, to what its reading says
(`Mapper.Resolved.resolvePath_iff_reading`).

The draft has then followed the chain from the root (`Draft.Follows`). The relations that it had
followed before are not traversed again.
-/

namespace GraphMapper

open Outcome

/-! ## Readings -/

/-- What the last segments of a path name at the entity that is reached: its documents, their key, an
attribute, or names inside of an attribute that holds JSON. -/
inductive Entity.Ends (e : Entity) : List String → Option AttributePath → Prop
  | document : e.Ends [] none
  | key : e.Ends [keyField] (some ⟨["_key"], .string⟩)
  | declared {name : String} {a : Attribute} (found : e.attribute? name = some a) :
      e.Ends [name] (some ⟨[name], a.type⟩)
  | inside {name : String} {a : Attribute} {names : List String}
      (found : e.attribute? name = some a) (json : a.type = .json) (nonempty : names ≠ [])
      (checked : ∀ name ∈ names, Text.isIdentifier name = true) :
      e.Ends (name :: names) (some ⟨name :: names, .json⟩)

/-- How segments are read from an entity on: a chain of relations, each of the entity that is reached
by those before it, and what the other segments name at the last entity. -/
inductive Mapper.Reading (m : Mapper) :
    String → List String → List String → Entity → Option AttributePath → Prop
  | ends {entity : String} {e : Entity} {segments : List String} {a? : Option AttributePath}
      (lookup : m.schema.lookup entity = .ok e) (ends : e.Ends segments a?) :
      m.Reading entity segments [] e a?
  | hop {entity relationship : String} {next : Hop} {segments chain : List String} {e : Entity}
      {a? : Option AttributePath} (found : m.topology.hop entity relationship = .ok next)
      (rest : m.Reading next.target segments chain e a?) :
      m.Reading entity (relationship :: segments) (relationship :: chain) e a?

/-- The relations stand before what is named at the entity that they lead to. -/
theorem Mapper.Reading.exists_ends {m : Mapper} {entity : String} {segments chain : List String}
    {e : Entity} {a? : Option AttributePath} (h : m.Reading entity segments chain e a?) :
    ∃ target last, m.schema.lookup target = .ok e ∧ e.Ends last a? ∧ segments = chain ++ last := by
  induction h with
  | ends lookup ends => exact ⟨_, _, lookup, ends, rfl⟩
  | hop _ _ ih =>
    obtain ⟨target, last, hlookup, hends, rfl⟩ := ih
    exact ⟨target, last, hlookup, hends, rfl⟩

/-! ## One reading -/

namespace Entity

variable {e : Entity} (hvalid : e.Valid)
include hvalid

/-- No attribute is declared under a name that is kept. -/
theorem attribute?_of_reserved {name : String} (h : name ∈ reservedNames) :
    e.attribute? name = none := by
  apply List.find?_eq_none.mpr
  intro a ha heq
  have hname : isMemberName name = true := beq_iff_eq.mp heq ▸ (hvalid.attributes a ha).name
  exact not_mem_reservedNames hname h

/-- Segments name one thing at most at an entity. -/
theorem Ends.unique {segments : List String} {a? b? : Option AttributePath}
    (h : e.Ends segments a?) (h' : e.Ends segments b?) : a? = b? := by
  have hkey : e.attribute? keyField = none := attribute?_of_reserved hvalid List.mem_cons_self
  cases h with
  | document =>
    cases h'
    rfl
  | key =>
    cases h' with
    | key => rfl
    | declared found => cases hkey.symm.trans found
    | inside _ _ nonempty => exact absurd rfl nonempty
  | declared found =>
    cases h' with
    | key => cases hkey.symm.trans found
    | declared found' => rw [Option.some.inj (found.symm.trans found')]
    | inside _ _ nonempty => exact absurd rfl nonempty
  | inside found _ nonempty =>
    cases h' with
    | key => exact absurd rfl nonempty
    | declared => exact absurd rfl nonempty
    | inside => rfl

/-- What segments name says what they are: the key has a name of its own, and every other name is that
of an attribute. -/
theorem Ends.segments_eq {segments : List String} {a? : Option AttributePath}
    (h : e.Ends segments a?) : segments =
      if (a?.map (·.segments)).getD [] = ["_key"] then [keyField]
      else (a?.map (·.segments)).getD [] := by
  cases h with
  | document => rfl
  | key => rfl
  | @declared name a found =>
    have hne : name ≠ "_key" := by
      rintro rfl
      cases (attribute?_of_reserved hvalid (by decide)).symm.trans found
    simp [hne]
  | inside _ _ nonempty => simp [nonempty]

end Entity

namespace Mapper

variable {m : Mapper} (hm : m.Resolved)
include hm

theorem Resolved.valid_lookup {entity : String} {e : Entity} (h : m.schema.lookup entity = .ok e) :
    e.Valid :=
  hm.wellFormed.valid_entity (hm.wellFormed.lookup_eq_ok h).1

/-- What begins with a relation of an entity names nothing else at it. -/
theorem Resolved.not_ends {entity relationship : String} {e : Entity} {hop : Hop}
    (he : m.schema.lookup entity = .ok e) (hhop : m.topology.hop entity relationship = .ok hop)
    {segments : List String} {a? : Option AttributePath} :
    ¬ e.Ends (relationship :: segments) a? := by
  obtain ⟨hkey, hattribute⟩ := hm.hop_free hhop he
  intro h
  cases h with
  | key => exact hkey rfl
  | declared found => cases hattribute.symm.trans found
  | inside found => cases hattribute.symm.trans found

/-- Segments are read in one way at most. -/
theorem Reading.unique {entity : String} {segments chain chain' : List String} {e e' : Entity}
    {a? b? : Option AttributePath} (h : m.Reading entity segments chain e a?)
    (h' : m.Reading entity segments chain' e' b?) : chain = chain' ∧ e = e' ∧ a? = b? := by
  induction h generalizing chain' with
  | ends he hends =>
    cases h' with
    | ends he' hends' =>
      obtain rfl := Except.ok.inj (he.symm.trans he')
      exact ⟨rfl, rfl, Entity.Ends.unique (hm.valid_lookup he) hends hends'⟩
    | hop hhop => exact absurd hends (hm.not_ends he hhop)
  | hop hhop _ ih =>
    cases h' with
    | ends he' hends' => exact absurd hends' (hm.not_ends he' hhop)
    | hop hhop' hrest' =>
      obtain rfl := Except.ok.inj (hhop.symm.trans hhop')
      obtain ⟨rfl, hsame⟩ := ih hrest'
      exact ⟨rfl, hsame⟩

/-! ## Names -/

/-- Segments that name something are identifiers, and so are the names of attributes. -/
theorem Resolved.named_of_ends {entity : String} {e : Entity} (he : m.schema.lookup entity = .ok e)
    {segments : List String} {a? : Option AttributePath} (h : e.Ends segments a?) :
    (∀ segment ∈ segments, Text.isIdentifier segment = true) ∧
      ∀ a ∈ a?, ∀ segment ∈ a.segments, Text.isIdentifier segment = true := by
  obtain ⟨hmem, -⟩ := hm.wellFormed.lookup_eq_ok he
  have hdeclared : ∀ {name : String} {a : Attribute}, e.attribute? name = some a →
      Text.isIdentifier name = true := by
    intro name a ha
    have hname : a.name = name := by simpa using List.find?_some ha
    exact hname ▸ hm.wellFormed.isIdentifier_attribute hmem (List.mem_of_find?_eq_some ha)
  cases h with
  | document => simp
  | key =>
    have hnames : Text.isIdentifier keyField = true ∧ Text.isIdentifier "_key" = true := by decide
    simpa using hnames
  | declared found => simpa using hdeclared found
  | inside found _ _ checked =>
    have hname := hdeclared found
    exact ⟨List.forall_mem_cons.mpr ⟨hname, checked⟩, by simpa using ⟨hname, checked⟩⟩

/-- The segments of a path that can be read are identifiers, and so are the names that it ends with. -/
theorem Reading.named {entity : String} {segments chain : List String} {e : Entity}
    {a? : Option AttributePath} (h : m.Reading entity segments chain e a?) :
    (∀ segment ∈ segments, Text.isIdentifier segment = true) ∧
      ∀ a ∈ a?, ∀ segment ∈ a.segments, Text.isIdentifier segment = true := by
  induction h with
  | ends he hends => exact hm.named_of_ends he hends
  | hop hhop _ ih => exact ⟨List.forall_mem_cons.mpr ⟨hm.isIdentifier_hop hhop, ih.1⟩, ih.2⟩

end Mapper

/-! ## Following chains -/

/-- The routes that a chain of relations leads through from the end of a route. -/
def Route.through (start : Route) : List String → List Route
  | [] => []
  | relationship :: rest => (relationship :: start) :: Route.through (relationship :: start) rest

theorem Route.length_lt_of_mem_through {start r : Route} {chain : List String}
    (h : r ∈ start.through chain) : start.length < r.length := by
  induction chain generalizing start with
  | nil => cases h
  | cons relationship rest ih =>
    rcases List.mem_cons.mp h with rfl | h
    · exact Nat.lt_succ_self _
    · exact Nat.lt_trans (Nat.lt_succ_self _) (ih h)

namespace Draft

variable {m : Mapper} {d d' : Draft} {path : String}

/-- A draft has followed a chain of relations from one scope to another. It has got the routes on the
way that it did not have, in order, each with a traversal of one hop. -/
structure Follows (m : Mapper) (d : Draft) (scope : Scope) (chain : List String) (d' : Draft)
    (scope' : Scope) : Prop where
  grows : Grows m d d'
  route : d'.route scope' = chain.reverse ++ d.route scope
  routes : d'.routes = d.routes ++ ((d.route scope).through chain).filter (· ∉ d.routes)

theorem Follows.nil (hd : Built m d) (scope : Scope) : d.Follows m scope [] d scope :=
  ⟨.refl hd, rfl, (List.append_nil _).symm⟩

theorem Follows.cons {d₁ : Draft} {scope scope₁ scope' : Scope} {source relationship target : String}
    {chain : List String} (hd : Built m d) (hat : d.At scope source)
    (h : follow m d scope source relationship none = .ok (scope₁, target, d₁))
    (hrest : d₁.Follows m scope₁ chain d' scope') :
    d.Follows m scope (relationship :: chain) d' scope' := by
  obtain ⟨hgrows, -⟩ := follow_grows hd hat h
  obtain ⟨hroute, hroutes⟩ := follow_route hd hat h
  refine ⟨hgrows.trans hrest.grows, ?_, ?_⟩
  · rw [hrest.route, hroute, List.reverse_cons, List.append_assoc, List.singleton_append]
  · -- the routes behind the first one are longer, and so it makes no difference that it is there now
    have hold : ∀ r ∈ Route.through (relationship :: d.route scope) chain,
        (r ∉ d₁.routes) = (r ∉ d.routes) := by
      intro r hr
      have hne : r ≠ relationship :: d.route scope :=
        fun heq => Nat.ne_of_lt (Route.length_lt_of_mem_through hr) (congrArg List.length heq.symm)
      simp [hroutes, hne]
    have hsame : (Route.through (relationship :: d.route scope) chain).filter (· ∉ d₁.routes) =
        (Route.through (relationship :: d.route scope) chain).filter (· ∉ d.routes) :=
      List.filter_congr fun r hr => by simp only [hold r hr]
    rw [hrest.routes, hroute, hsame, hroutes, List.append_assoc, ← List.filter_append]
    rfl

/-! ## Resolving is reading -/

section

variable (hm : m.Resolved)
include hm

/-- An end of a path is resolved where it is read. -/
theorem resolveFrom_of_ends {entity : String} {e : Entity} (he : m.schema.lookup entity = .ok e)
    {segments : List String} {a? : Option AttributePath} (h : e.Ends segments a?) (d : Draft)
    (scope : Scope) :
    resolveFrom m path d scope entity segments = .ok (⟨path, scope, entity, a?⟩, d) := by
  have hkey : e.attribute? keyField = none :=
    Entity.attribute?_of_reserved (hm.valid_lookup he) List.mem_cons_self
  have hne : ∀ {name : String} {a : Attribute}, e.attribute? name = some a → name ≠ keyField := by
    rintro name a ha rfl
    cases hkey.symm.trans ha
  cases h with
  | document => rfl
  | key => rfl
  | declared found =>
    simp [resolveFrom, hne found, he, found, bind, Except.bind, pure, Except.pure]
  | inside found json nonempty checked =>
    simp [resolveFrom, hne found, he, found, json, nonempty, bind, Except.bind, pure,
      Except.pure]
    exact checked

/-- What is read can be resolved, from whichever scope. -/
theorem exists_resolveFrom (hmax : 1 ≤ m.settings.maxTraversalDepth) {entity : String}
    {segments chain : List String} {e e₀ : Entity} {a? : Option AttributePath}
    (h : m.Reading entity segments chain e a?) (he : m.schema.lookup entity = .ok e₀) (d : Draft)
    (scope : Scope) : ∃ f d', resolveFrom m path d scope entity segments = .ok (f, d') := by
  induction h generalizing e₀ d scope with
  | ends he' hends => exact ⟨_, _, resolveFrom_of_ends hm he' hends d scope⟩
  | @hop entity relationship hop segments chain e a? hhop _ ih =>
    obtain ⟨hkey, hattribute⟩ := hm.hop_free hhop he
    obtain ⟨e₁, he₁⟩ := hm.exists_lookup_target hhop
    obtain ⟨scope', d₁, hfollow⟩ := exists_follow hmax hhop d scope
    obtain ⟨f, d', hrest⟩ := ih he₁ d₁ scope'
    have hfound : ¬ (segments.isEmpty ∧ (m.topology.hop? entity relationship).isNone) := by
      rintro ⟨-, hnone⟩
      rw [Topology.hop, Option.isNone_iff_eq_none.mp hnone] at hhop
      cases hhop
    refine ⟨f, d', ?_⟩
    rw [resolveFrom, if_neg hkey, he]
    refine bind_eq_ok.mpr ⟨e₀, rfl, ?_⟩
    rw [hattribute]
    exact guard_eq_ok.mpr ⟨hfound, bind_eq_ok.mpr ⟨_, hfollow, hrest⟩⟩

/-- An end is a reading without relations. -/
theorem reading_of_ends {entity : String} {e : Entity} {scope : Scope} {segments : List String}
    {a? : Option AttributePath} (hd : Built m d) (he : m.schema.lookup entity = .ok e)
    (h : e.Ends segments a?) : ∃ chain e, m.Reading entity segments chain e a? ∧
      (⟨path, scope, entity, a?⟩ : FieldPath) = ⟨path, scope, e.name, a?⟩ ∧
      d.Follows m scope chain d scope := by
  obtain ⟨-, rfl⟩ := hm.wellFormed.lookup_eq_ok he
  exact ⟨[], e, .ends he h, rfl, .nil hd scope⟩

/-- What is resolved has been read: the draft has followed the relations of a reading, and the field is
what the reading ends with. -/
theorem resolveFrom_reading {entity : String} {e₀ : Entity} {scope : Scope} {segments : List String}
    {f : FieldPath} (hd : Built m d) (hat : d.At scope entity)
    (he : m.schema.lookup entity = .ok e₀)
    (h : resolveFrom m path d scope entity segments = .ok (f, d')) :
    ∃ chain e, m.Reading entity segments chain e f.attribute? ∧
      f = ⟨path, f.scope, e.name, f.attribute?⟩ ∧ d.Follows m scope chain d' f.scope := by
  induction segments generalizing d scope entity e₀ with
  | nil =>
    obtain ⟨rfl, rfl⟩ := Prod.mk.inj (Except.ok.inj h)
    exact reading_of_ends hm hd he .document
  | cons segment rest ih =>
    rw [resolveFrom] at h
    split at h
    · next hkey =>
      split at h
      · next hrest =>
        obtain rfl := List.isEmpty_iff.mp hrest
        obtain ⟨rfl, rfl⟩ := Prod.mk.inj (Except.ok.inj h)
        exact reading_of_ends hm hd he (hkey ▸ .key)
      · cases h
    · obtain ⟨e₁, he₁, hread⟩ := bind_eq_ok.mp h
      obtain rfl := Except.ok.inj (he.symm.trans he₁)
      split at hread
      · next a found =>
        split at hread
        · next hrest =>
          obtain rfl := List.isEmpty_iff.mp hrest
          obtain ⟨rfl, rfl⟩ := Prod.mk.inj (pure_eq_ok.mp hread)
          exact reading_of_ends hm hd he (.declared found)
        · next hrest =>
          split at hread
          · next hnested =>
            have hnonempty : rest ≠ [] := fun hnil => hrest (List.isEmpty_iff.mpr hnil)
            have hchecked := List.all_eq_true.mp hnested.2
            obtain ⟨rfl, rfl⟩ := Prod.mk.inj (pure_eq_ok.mp hread)
            exact reading_of_ends hm hd he (.inside found hnested.1 hnonempty hchecked)
          · cases hread
      · obtain ⟨-, hread⟩ := guard_eq_ok.mp hread
        obtain ⟨⟨scope₁, entity₁, d₁⟩, hfollow, hrest⟩ := bind_eq_ok.mp hread
        obtain ⟨hop, hhop, rfl, -⟩ := follow_eq_ok hfollow
        obtain ⟨hgrows, hat₁⟩ := follow_grows hd hat hfollow
        obtain ⟨e₁, he₁⟩ := hm.exists_lookup_target hhop
        obtain ⟨chain, e, hreading, heq, hfollows⟩ := ih hgrows.built hat₁ he₁ hrest
        exact ⟨_, e, .hop hhop hreading, heq, .cons hd hat hfollow hfollows⟩

/-- A path that resolves has been read from the root. -/
theorem resolvePath_reading {f : FieldPath} (hd : Built m d)
    (h : d.resolvePath m path = .ok (f, d')) :
    ∃ chain e, m.Reading d.entity (Text.split '.' path) chain e f.attribute? ∧
      f = ⟨path, f.scope, e.name, f.attribute?⟩ ∧ d.Follows m .root chain d' f.scope := by
  obtain ⟨e₀, he₀, -⟩ := hd.collection
  unfold resolvePath at h
  dsimp only at h
  split at h
  · cases h
  · exact resolveFrom_reading hm hd (show d.At .root d.entity from rfl) he₀ h

end

end Draft

/-! ## The language -/

/-- A path resolves just when it can be read: as relations, each of the entity reached by those before
it, then the key, an attribute, or identifiers behind an attribute that holds JSON, or nothing if there
are relations. The field is what the path ends with, at the scope behind the relations. Those of them
that had not been followed before are traversals of one hop now, in order. -/
theorem Mapper.Resolved.resolvePath_iff_reading {m : Mapper} (hm : m.Resolved)
    (hmax : 1 ≤ m.settings.maxTraversalDepth) {d : Draft} (hd : Draft.Built m d) (path : String) :
    ((∃ f d', d.resolvePath m path = .ok (f, d')) ↔
        ∃ chain e a?, m.Reading d.entity (Text.split '.' path) chain e a?) ∧
      ∀ f d' chain e a?, d.resolvePath m path = .ok (f, d') →
        m.Reading d.entity (Text.split '.' path) chain e a? →
          f = ⟨path, f.scope, e.name, a?⟩ ∧ d'.Reads f ∧ d.Follows m .root chain d' f.scope := by
  constructor
  · constructor
    · rintro ⟨f, d', h⟩
      obtain ⟨chain, e, hreading, -⟩ := Draft.resolvePath_reading hm hd h
      exact ⟨chain, e, _, hreading⟩
    · rintro ⟨chain, e, a?, hreading⟩
      obtain ⟨e₀, he₀, -⟩ := hd.collection
      have hsegments : ¬ (Text.split '.' path).contains "" := by
        intro hempty
        have hname := (hreading.named hm).1 "" (List.contains_iff_mem.mp hempty)
        exact absurd hname (by decide)
      unfold Draft.resolvePath
      dsimp only
      rw [if_neg hsegments]
      exact Draft.exists_resolveFrom hm hmax hreading he₀ d .root
  · intro f d' chain e a? h hreading
    obtain ⟨chain', e', hreading', hf, hfollows⟩ := Draft.resolvePath_reading hm hd h
    obtain ⟨rfl, rfl, rfl⟩ := hreading.unique hm hreading'
    exact ⟨hf, (Draft.resolvePath_reads hd h).2, hfollows⟩

/-- The age of the owners of accounts, after the accounts have been reached: the traversal to the owners
alone is new. An attribute that holds no JSON has nothing inside. -/
theorem Mapper.resolvePath_iff_reading_owner :
    ∃ d f d' chain e, Bank.mapper.draft "Person" [.traverse "accounts" 3] = .ok d ∧
      d.resolvePath Bank.mapper "accounts.owner.age" = .ok (f, d') ∧
      Bank.mapper.Reading d.entity ["accounts", "owner", "age"] chain e (some ⟨["age"], .integer⟩) ∧
      (f = ⟨"accounts.owner.age", f.scope, e.name, some ⟨["age"], .integer⟩⟩ ∧ d'.Reads f ∧
        d.Follows Bank.mapper .root chain d' f.scope) ∧
      (d.routes, d'.routes) = ([["accounts"]], [["accounts"], ["owner", "accounts"]]) ∧
      ¬ ∃ chain e a?, Bank.mapper.Reading d.entity ["age", "owner"] chain e a? := by
  have hmax : 1 ≤ Bank.mapper.settings.maxTraversalDepth := by decide +kernel
  have hrun : (do
      let d ← Bank.mapper.draft "Person" [.traverse "accounts" 3]
      let resolved ← d.resolvePath Bank.mapper "accounts.owner.age"
      return (resolved.1.attribute?, d.routes, resolved.2.routes,
        (d.resolvePath Bank.mapper "age.owner").isOk)).toOption =
    some (some ⟨["age"], .integer⟩, [["accounts"]], [["accounts"], ["owner", "accounts"]], false) := by
    decide +kernel
  obtain ⟨d, hdraft, hrun⟩ := bind_eq_ok.mp (eq_ok_of_toOption hrun)
  obtain ⟨⟨f, d'⟩, hresolve, hrun⟩ := bind_eq_ok.mp hrun
  obtain ⟨hattribute, hroutes, hroutes', hrefused⟩ : f.attribute? = some ⟨["age"], .integer⟩ ∧
      d.routes = [["accounts"]] ∧ d'.routes = [["accounts"], ["owner", "accounts"]] ∧
      (d.resolvePath Bank.mapper "age.owner").isOk = false := by
    simpa using pure_eq_ok.mp hrun
  obtain ⟨hbuilt, -⟩ := draft_built hdraft
  obtain ⟨haccepted, hresolved⟩ := Bank.mapper_resolved.resolvePath_iff_reading hmax hbuilt
    "accounts.owner.age"
  obtain ⟨chain, e, a?, hreading⟩ := haccepted.mp ⟨f, d', hresolve⟩
  obtain ⟨hf, hreads, hfollows⟩ := hresolved f d' chain e a? hresolve hreading
  obtain rfl : a? = some ⟨["age"], .integer⟩ := (congrArg FieldPath.attribute? hf).symm.trans hattribute
  refine ⟨d, f, d', chain, e, hdraft, hresolve, hreading, ⟨hf, hreads, hfollows⟩,
    Prod.ext hroutes hroutes', ?_⟩
  intro hread
  obtain ⟨f', d'', hresolve'⟩ :=
    (Bank.mapper_resolved.resolvePath_iff_reading hmax hbuilt "age.owner").1.mpr hread
  rw [hresolve'] at hrefused
  cases hrefused

end GraphMapper
