import GraphMapper.Aql.Statement
import GraphMapper.Proofs.Aql.Contained
import GraphMapper.Proofs.Dict
import GraphMapper.Proofs.Outcome

/-!
# Binding parameters

A caller binds parameters one after the other, and a bind that fails leaves the statement as it was
(`Statement.attempts`). What each bind keeps is `Statement.Bound`: the names in the placeholders of the
text are those that have had values from the start and the parameters, and of these exactly the ones
that have been bound have values. What a caller sees follows from it (`Statement.Matched`).
-/

namespace GraphMapper.Statement

open Outcome

/-! ## Binds -/

/-- The statement with a value for one of its parameters. -/
def given (st : Statement) (name : String) (value : Value) : Statement :=
  { st with
    bindVars := Dict.insert st.bindVars name value.toJson
    unbound := st.unbound.filter (· != name) }

/-- A bind that leaves the statement as it is where it fails. -/
def attempt (st : Statement) (b : String × Value) : Statement :=
  match st.bind b.1 b.2 with
  | .ok st' => st'
  | .error _ => st

/-- Binds one after the other, successful or not. -/
def attempts (st : Statement) (bs : List (String × Value)) : Statement := bs.foldl attempt st

variable {st st' : Statement} {name : String} {value : Value}

theorem bind_of_mem (h : name ∈ st.parameters) (value : Value) :
    st.bind name value = .ok (st.given name value) :=
  if_pos (List.contains_iff_mem.mpr h)

theorem bind_of_notMem (h : name ∉ st.parameters) (value : Value) :
    st.bind name value = .error (.unknownParameter name) :=
  if_neg fun hmem => h (List.contains_iff_mem.mp hmem)

theorem eq_given_of_bind (h : st.bind name value = .ok st') :
    name ∈ st.parameters ∧ st' = st.given name value := by
  by_cases hmem : name ∈ st.parameters
  · rw [bind_of_mem hmem] at h
    exact ⟨hmem, (Except.ok.inj h).symm⟩
  · rw [bind_of_notMem hmem] at h
    cases h

theorem attempt_of_mem {b : String × Value} (h : b.1 ∈ st.parameters) :
    st.attempt b = st.given b.1 b.2 := by
  rw [attempt, bind_of_mem h]

theorem attempt_of_notMem {b : String × Value} (h : b.1 ∉ st.parameters) : st.attempt b = st := by
  rw [attempt, bind_of_notMem h]

@[simp] theorem parameters_given (st : Statement) (name : String) (value : Value) :
    (st.given name value).parameters = st.parameters := rfl

theorem find?_given (st : Statement) (name other : String) (value : Value) :
    Dict.find? (st.given name value).bindVars other =
      if name = other then some value.toJson else Dict.find? st.bindVars other :=
  Dict.find?_insert st.bindVars name other value.toJson

/-! ## What binds keep -/

/-- A statement after binds of the names `bound`. The names `fixed` have had values from the start,
and `parameters` are those that a caller may bind. -/
structure Bound (fixed parameters bound : List String) (st : Statement) : Prop where
  placeholders : ∀ name, name ∈ Aql.placeholders st.query.toList ↔ name ∈ fixed ∨ name ∈ parameters
  separate : ∀ name ∈ fixed, name ∉ parameters
  notLiteral : ∀ name ∈ parameters, ∀ n, (Aql.Slot.literal n).name ≠ name
  mem_parameters : ∀ name, name ∈ st.parameters ↔ name ∈ parameters
  mem_keys : ∀ name, name ∈ Dict.keys st.bindVars ↔
    name ∈ fixed ∨ (name ∈ parameters ∧ name ∈ bound)
  mem_unbound : ∀ name, name ∈ st.unbound ↔ name ∈ parameters ∧ name ∉ bound
  nodup : st.unbound.Nodup
  sorted : Dict.Sorted st.bindVars

namespace Bound

variable {fixed parameters bound : List String}

/-- A bind of a parameter adds it to the names that are bound. -/
theorem given (h : st.Bound fixed parameters bound) (hname : name ∈ parameters) (value : Value) :
    (st.given name value).Bound fixed parameters (bound ++ [name]) := by
  refine { h with
    mem_keys := ?mem_keys
    mem_unbound := ?mem_unbound
    nodup := h.nodup.filter _
    sorted := h.sorted.insert name value.toJson }
  case mem_keys =>
    intro other
    rw [Statement.given, Dict.mem_keys_insert, h.mem_keys, List.mem_append, List.mem_singleton]
    constructor
    · rintro (rfl | hfixed | ⟨hparameter, hbound⟩)
      · exact Or.inr ⟨hname, Or.inr rfl⟩
      · exact Or.inl hfixed
      · exact Or.inr ⟨hparameter, Or.inl hbound⟩
    · rintro (hfixed | ⟨hparameter, hbound | rfl⟩)
      · exact Or.inr (Or.inl hfixed)
      · exact Or.inr (Or.inr ⟨hparameter, hbound⟩)
      · exact Or.inl rfl
  case mem_unbound =>
    intro other
    rw [Statement.given, List.mem_filter, h.mem_unbound, bne_iff_ne, List.mem_append,
      List.mem_singleton, not_or, and_assoc]

/-- A bind of another name does not count. -/
theorem ignore (h : st.Bound fixed parameters bound) (hname : name ∉ parameters) :
    st.Bound fixed parameters (bound ++ [name]) := by
  have hne : ∀ other ∈ parameters, other ≠ name := fun other hother heq => hname (heq ▸ hother)
  -- `name` joins the names that were bound, but these count for parameters alone.
  refine { h with mem_keys := ?mem_keys, mem_unbound := ?mem_unbound }
  case mem_keys =>
    intro other
    rw [h.mem_keys]
    apply or_congr_right
    apply and_congr_right
    intro hother
    simp [hne other hother]
  case mem_unbound =>
    intro other
    rw [h.mem_unbound]
    apply and_congr_right
    intro hother
    simp [hne other hother]

theorem attempt (h : st.Bound fixed parameters bound) (b : String × Value) :
    (st.attempt b).Bound fixed parameters (bound ++ [b.1]) := by
  by_cases hmem : b.1 ∈ parameters
  · rw [attempt_of_mem ((h.mem_parameters b.1).mpr hmem)]
    exact h.given hmem b.2
  · rw [attempt_of_notMem fun hparameter => hmem ((h.mem_parameters b.1).mp hparameter)]
    exact h.ignore hmem

theorem attempts (h : st.Bound fixed parameters bound) (bs : List (String × Value)) :
    (st.attempts bs).Bound fixed parameters (bound ++ bs.map Prod.fst) := by
  induction bs generalizing st bound with
  | nil => simpa [Statement.attempts] using h
  | cons b rest ih =>
    have hrest := ih (h.attempt b)
    rwa [List.append_assoc, List.singleton_append] at hrest

/-- Binds change nothing but the values of parameters. -/
theorem find?_attempts (h : st.Bound fixed parameters bound) (hname : name ∉ parameters)
    (bs : List (String × Value)) :
    Dict.find? (st.attempts bs).bindVars name = Dict.find? st.bindVars name := by
  induction bs generalizing st bound with
  | nil => rfl
  | cons b rest ih =>
    refine (ih (h.attempt b)).trans ?_
    by_cases hmem : b.1 ∈ st.parameters
    · have hne : b.1 ≠ name := fun heq => hname (heq ▸ (h.mem_parameters b.1).mp hmem)
      rw [attempt_of_mem hmem, find?_given, if_neg hne]
    · rw [attempt_of_notMem hmem]

end Bound

/-! ## Statements without parameters -/

/-- Every slot has its value from the start, and names do nothing to the text. -/
inductive Complete : Statement → Prop
  | closed {command : Aql.Command} {values : List (Aql.Slot × Json)} :
      command.slots = values.map Prod.fst → (∀ p ∈ command.parts, p.Contained) →
      Complete (Statement.closed command values)

theorem closed_sorted (command : Aql.Command) (values : List (Aql.Slot × Json)) :
    Dict.Sorted (closed command values).bindVars :=
  Dict.ofEntries_sorted _

theorem Complete.bound (h : st.Complete) : ∃ fixed, st.Bound fixed [] [] := by
  cases h with
  | @closed command values hslots hcontained =>
    refine ⟨Dict.keys (values.map fun v => (v.1.name, v.2)), {
      placeholders := ?placeholders
      separate := by simp
      notLiteral := by simp
      mem_parameters := fun _ => Iff.rfl
      mem_keys := ?mem_keys
      mem_unbound := by simp [Statement.closed]
      nodup := List.nodup_nil
      sorted := closed_sorted command values }⟩
    case placeholders =>
      intro name
      rw [query, Statement.closed, Aql.Command.placeholders_text hcontained, hslots]
      simp [Dict.keys, Function.comp_def]
    case mem_keys =>
      intro name
      rw [Statement.closed, Dict.mem_keys_ofEntries]
      simp

/-! ## What a caller sees -/

/-- The placeholders of the text match the bind variables and the names that lack a value, and the
statement can be sent once all parameters are bound. -/
structure Matched (parameters bound : List String) (st : Statement) : Prop where
  placeholders : ∀ name, name ∈ Aql.placeholders st.query.toList ↔
    name ∈ Dict.keys st.bindVars ∨ name ∈ st.unbound
  disjoint : ∀ name ∈ st.unbound, name ∉ Dict.keys st.bindVars
  nodup : st.unbound.Nodup
  bind_iff : ∀ name value, (∃ st', st.bind name value = .ok st') ↔ name ∈ parameters
  ready_iff : st.isReady = true ↔ ∀ name ∈ parameters, name ∈ bound
  request_iff : (∃ body, st.requestBody = .ok body) ↔ ∀ name ∈ parameters, name ∈ bound

/-- The statement after a bind of `name`: it has the value, and nothing else is another. -/
structure Rebinds (st : Statement) (name : String) (value : Value) (st' : Statement) : Prop where
  query : st'.query = st.query
  value : Dict.find? st'.bindVars name = some value.toJson
  others : ∀ other, other ≠ name → Dict.find? st'.bindVars other = Dict.find? st.bindVars other
  unbound : st'.unbound = st.unbound.filter (· != name)

/-- What a caller can rely on after binds, successful or not, of a statement with these
parameters. -/
structure Reliable (parameters : List String) (st : Statement) (bs : List (String × Value)) :
    Prop where
  matched : (st.attempts bs).Matched parameters (bs.map Prod.fst)
  /-- No literal can be bound. -/
  literals : ∀ n, (Aql.Slot.literal n).name ∉ parameters
  /-- What cannot be bound has the value that it had before the binds. -/
  kept : ∀ name ∉ parameters,
    Dict.find? (st.attempts bs).bindVars name = Dict.find? st.bindVars name
  rebinds : ∀ name value st', (st.attempts bs).bind name value = .ok st' →
    (st.attempts bs).Rebinds name value st'
  refused : ∀ name value e, (st.attempts bs).bind name value = .error e →
    e = .unknownParameter name ∧ (st.attempts bs).attempt (name, value) = st.attempts bs
  commute : ∀ b b', b.1 ≠ b'.1 →
    ((st.attempts bs).attempt b).attempt b' = ((st.attempts bs).attempt b').attempt b

theorem requestBody_iff : (∃ body, st.requestBody = .ok body) ↔ st.isReady = true := by
  constructor
  · rintro ⟨body, hbody⟩
    obtain ⟨_, hcheck, -⟩ := bind_eq_ok.mp hbody
    by_contra hnot
    rw [checkReady, if_neg hnot] at hcheck
    cases hcheck
  · intro hready
    have hcheck : st.checkReady = .ok () := if_pos hready
    exact ⟨_, bind_eq_ok.mpr ⟨_, hcheck, rfl⟩⟩

namespace Bound

variable {fixed parameters bound : List String}

theorem ready_iff (h : st.Bound fixed parameters bound) :
    st.isReady = true ↔ ∀ name ∈ parameters, name ∈ bound := by
  rw [isReady, List.isEmpty_iff, List.eq_nil_iff_forall_not_mem]
  apply forall_congr'
  intro name
  rw [h.mem_unbound, not_and, not_not]

theorem matched (h : st.Bound fixed parameters bound) : st.Matched parameters bound := by
  refine {
    placeholders := ?placeholders
    disjoint := ?disjoint
    nodup := h.nodup
    bind_iff := ?bind_iff
    ready_iff := h.ready_iff
    request_iff := requestBody_iff.trans h.ready_iff }
  case placeholders =>
    intro name
    -- A parameter either has been bound or lacks its value.
    rw [h.placeholders, h.mem_keys, h.mem_unbound, or_assoc, ← and_or_left]
    simp [Classical.em]
  case disjoint =>
    intro name hname hkey
    obtain ⟨hparameter, hunbound⟩ := (h.mem_unbound name).mp hname
    rcases (h.mem_keys name).mp hkey with hfixed | ⟨-, hbound⟩
    · exact h.separate name hfixed hparameter
    · exact hunbound hbound
  case bind_iff =>
    intro name value
    rw [← h.mem_parameters]
    constructor
    · rintro ⟨st', hst'⟩
      exact (eq_given_of_bind hst').1
    · exact fun hmem => ⟨_, bind_of_mem hmem value⟩

theorem rebinds (hbind : st.bind name value = .ok st') : st.Rebinds name value st' := by
  obtain ⟨-, rfl⟩ := eq_given_of_bind hbind
  refine { query := rfl, value := ?value, others := ?others, unbound := rfl }
  case value => rw [find?_given, if_pos rfl]
  case others =>
    intro other hother
    rw [find?_given, if_neg (Ne.symm hother)]

theorem given_comm (h : st.Bound fixed parameters bound) {other : String} (hne : name ≠ other)
    (value value' : Value) :
    (st.given name value).given other value' = (st.given other value').given name value := by
  unfold Statement.given
  dsimp only
  rw [h.sorted.insert_comm hne, List.filter_filter, List.filter_filter]
  simp only [Bool.and_comm]

/-- Binds of different names may change places. -/
theorem attempt_comm (h : st.Bound fixed parameters bound) {b b' : String × Value}
    (hne : b.1 ≠ b'.1) : (st.attempt b).attempt b' = (st.attempt b').attempt b := by
  by_cases hb : b.1 ∈ st.parameters
  · by_cases hb' : b'.1 ∈ st.parameters
    · rw [attempt_of_mem hb, attempt_of_mem hb', attempt_of_mem (by simpa using hb'),
        attempt_of_mem (by simpa using hb), h.given_comm hne]
    · rw [attempt_of_notMem hb', attempt_of_mem hb, attempt_of_notMem (by simpa using hb')]
  · rw [attempt_of_notMem hb]
    by_cases hb' : b'.1 ∈ st.parameters
    · rw [attempt_of_mem hb', attempt_of_notMem (by simpa using hb)]
    · rw [attempt_of_notMem hb', attempt_of_notMem hb]

theorem reliable (h : st.Bound fixed parameters []) (bs : List (String × Value)) :
    st.Reliable parameters bs := by
  have hnow : (st.attempts bs).Bound fixed parameters (bs.map Prod.fst) := h.attempts bs
  refine {
    matched := hnow.matched
    literals := fun n hmem => h.notLiteral _ hmem n rfl
    kept := fun name hname => h.find?_attempts hname bs
    rebinds := fun name value st' => rebinds
    refused := ?refused
    commute := fun b b' => hnow.attempt_comm }
  intro name value e hbind
  have hmem : name ∉ (st.attempts bs).parameters := by
    intro hmem
    rw [bind_of_mem hmem] at hbind
    cases hbind
  rw [bind_of_notMem hmem] at hbind
  exact ⟨(Except.error.inj hbind).symm, attempt_of_notMem hmem⟩

end Bound

end GraphMapper.Statement
