import GraphMapper.Proofs.Aql.Reading
import GraphMapper.Proofs.Aql.Scope

/-!
# Variables in the text of a statement

The variables of a text can be read off its lexemes: a head is one, together with the number behind
it if it has one (`varReader`). Those of a reading statement are the variable of its loop, then those
of its clauses in order, then those that its result reads (`Command.varsOf_read`), and a clause has
none but the ones that it binds, reads or keeps inside of it (`Clause.mentions`).
-/

namespace GraphMapper.Aql

/-- The variable at a head, given the lexeme behind it. Columns and literals are no variables. -/
def Head.var? : Head → Option Lexeme → Option Var
  | doc, _ => some .doc
  | hit, _ => some .hit
  | edge, _ => some .edge
  | step, some (.number n) => some (.step n)
  | included, some (.number n) => some (.included n)
  | neighbour, some (.number n) => some (.neighbour n)
  | group, some (.number n) => some (.group n)
  | total, some (.number n) => some (.total n)
  | _, _ => none

/-- The variables in lexemes, from left to right. -/
def varsOf : List Lexeme → List Var
  | [] => []
  | .head h :: rest => (h.var? rest.head?).toList ++ varsOf rest
  | _ :: rest => varsOf rest

/-- The variable of a part. -/
def Part.var? : Part → Option Var
  | var v => some v
  | expr e => some e.var
  | _ => none

def varReader : Reader Var where
  read := varsOf
  part p := p.var?.toList
  read_nil := rfl
  read_between _ _ h := by cases h <;> rfl
  read_column _ _ := rfl

theorem varsOf_segments (segments : List String) (rest : List Lexeme) :
    varsOf ((segments.flatMap fun s => [.mark .dot, attributeName s]) ++ rest) = varsOf rest := by
  induction segments with
  | nil => rfl
  | cons s segments ih =>
    change varsOf (attributeName s :: _) = _
    unfold attributeName
    split <;> exact ih

/-- A part shows its variable. -/
theorem varReader_reads (ps : List Part) : varReader.Reads ps := by
  rintro p - rest -
  cases p with
  | var v => cases v <;> rfl
  | expr e =>
    cases e with
    | column n => rfl
    | field v segments =>
      rw [Part.lexemes, Expr.lexemes, List.append_assoc]
      cases v <;> exact congrArg (_ :: ·) (varsOf_segments segments rest)
  | slot s => cases s <;> rfl
  | _ => rfl

/-! ## Variables of statements -/

/-- The variables of a clause in the order of its text. -/
def Clause.mentions : Clause → List Var
  | step s => s.binds ++ s.reads
  | firstMatch steps columns =>
    .hit :: (steps.flatMap (fun s => s.binds ++ s.reads) ++ columns.map Expr.var) ++ [.hit]
  | neighbours index _ _ => [.included index, .neighbour index, .doc, .neighbour index]
  | collect groups totals =>
    (groups.mapIdx fun n e => [.group n, e.var]).flatten ++
      (totals.mapIdx fun n t => [.total n, t.2.var]).flatten
  | sort keys => keys.map fun k => k.1.var
  | limit _ _ => []

theorem parts_exprs {α : Type} (expr : α → Expr) (as : List α) :
    varReader.parts (as.map fun a => .expr (expr a)) = as.map fun a => (expr a).var := by
  simp [Reader.parts, varReader, Part.var?, List.flatMap_map, ← List.map_eq_flatMap]

mutual
theorem Test.parts_reads : (t : Test) → varReader.parts t.parts = t.reads
  | .relation _ _ _ => rfl
  | .memberOf _ _ => rfl
  | .hasMember _ _ => rfl
  | .contains _ _ => rfl
  | .startsWith _ _ => rfl
  | .isNull _ _ => rfl
  | .all members => memberParts_reads members
  | .any members => memberParts_reads members
  | .not member => parts_reads member
theorem Test.memberParts_reads : (ts : List Test) →
    varReader.parts (Test.memberParts ts) = Test.memberReads ts
  | [] => rfl
  | t :: rest => by
    rw [Test.memberParts, Reader.parts_append, parts_reads t, memberParts_reads rest,
      Test.memberReads]
end

theorem Edges.parts_start (e : Edges) (start : Var) : varReader.parts (e.parts start) = [start] := by
  simp [Reader.parts, Edges.parts, varReader, Part.var?, List.flatMap_map]

theorem Step.parts_mentions (s : Step) : varReader.parts s.parts = s.binds ++ s.reads := by
  cases s with
  | filter test => exact test.parts_reads
  | traverse index depth start edges => exact congrArg (_ :: ·) (edges.parts_start start)

theorem parts_numbered {α : Type} (parts : Nat → α → List Part) (as : List α) :
    varReader.parts (as.mapIdx parts).flatten =
      (as.mapIdx fun n a => varReader.parts (parts n a)).flatten := by
  induction as generalizing parts with
  | nil => rfl
  | cons a rest ih =>
    rw [List.mapIdx_cons, List.flatten_cons, Reader.parts_append, ih, List.mapIdx_cons,
      List.flatten_cons]

/-- The parts of a clause show what it mentions. -/
theorem Clause.parts_mentions (c : Clause) : varReader.parts c.parts = c.mentions := by
  cases c with
  | step s => exact s.parts_mentions
  | firstMatch steps columns =>
    have hsteps : varReader.parts (steps.flatMap Step.parts) =
        steps.flatMap fun s => s.binds ++ s.reads := by
      rw [Reader.parts, List.flatMap_assoc]
      exact List.flatMap_congr fun s _ => s.parts_mentions
    have hcolumns : varReader.parts (columns.map .expr) = columns.map Expr.var :=
      parts_exprs id columns
    rw [Clause.parts, Reader.parts_append]
    change .hit :: varReader.parts (_ ++ _) ++ [.hit] = _
    rw [Reader.parts_append, hsteps, hcolumns]
    rfl
  | neighbours index cardinality edges =>
    rw [Clause.parts, Reader.parts_append]
    change .included index :: .neighbour index :: varReader.parts (edges.parts .doc) ++ _ = _
    rw [edges.parts_start]
    rfl
  | collect groups totals =>
    rw [Clause.parts, Reader.parts_append, parts_numbered, parts_numbered]
    rfl
  | sort keys => exact parts_exprs (·.1) keys
  | limit offset count => rfl

theorem entryParts_reads (entries : List (String × Expr)) :
    varReader.parts (entryParts entries) = entries.map fun e => e.2.var := by
  rw [Reader.parts, entryParts, List.flatMap_assoc, List.map_eq_flatMap]
  rfl

/-- The parts of a result show what it reads. -/
theorem Result.parts_reads (r : Result) : varReader.parts r.parts = r.reads := by
  cases r with
  | document => rfl
  | merged entries => exact congrArg (.doc :: ·) (entryParts_reads entries)
  | object entries => exact entryParts_reads entries

/-- The variables in a reading statement: that of the loop, those of the clauses, and what the result
reads. -/
theorem Command.varsOf_read (collection : String) (clauses : List Clause) (result : Result) :
    varsOf (read collection clauses result).lexemes =
      .doc :: clauses.flatMap Clause.mentions ++ result.reads := by
  have hclauses : varReader.parts (clauses.flatMap Clause.parts) =
      clauses.flatMap Clause.mentions := by
    rw [Reader.parts, List.flatMap_assoc]
    exact List.flatMap_congr fun c _ => c.parts_mentions
  refine (Reader.read_command (read collection clauses result) (varReader_reads _)).trans ?_
  change .doc :: varReader.parts (clauses.flatMap Clause.parts ++ result.parts) = _
  rw [Reader.parts_append, hclauses, result.parts_reads]
  rfl

/-! ## What a clause in order mentions -/

/-- The variables that a clause binds and that nothing outside of it sees. -/
def Clause.locals : Clause → List Var
  | firstMatch steps _ => steps.flatMap Step.binds
  | neighbours index _ _ => [.neighbour index]
  | _ => []

theorem Step.mentions_of_leads {visible visible' : List Var} {steps : List Step}
    (h : Leads Scoped after visible steps visible') :
    visible' = visible ++ steps.flatMap binds ∧
      ∀ s ∈ steps, ∀ v ∈ s.reads, v ∈ visible ++ steps.flatMap binds := by
  induction h with
  | nil => simp
  | @cons visible visible' s rest hs _ ih =>
    obtain ⟨heq, hreads⟩ := ih
    rw [after, List.append_assoc] at heq hreads
    refine ⟨heq, List.forall_mem_cons.mpr ⟨?_, hreads⟩⟩
    intro v hv
    exact List.mem_append_left _ (hs.reads v hv)

/-- A clause in order mentions what is visible and what it binds, and nothing else. -/
theorem Clause.Scoped.mentions {visible : List Var} {c : Clause} (h : c.Scoped visible) :
    ∀ v ∈ c.mentions, v ∈ visible ∨ v ∈ c.binds ∨ v ∈ c.locals := by
  intro v hv
  cases c with
  | step s =>
    rcases List.mem_append.mp hv with hv | hv
    · exact Or.inr (Or.inl hv)
    · exact Or.inl (h.reads v hv)
  | firstMatch steps columns =>
    obtain ⟨visible', hsteps, hcolumns⟩ := h.inner
    obtain ⟨rfl, hreads⟩ := Step.mentions_of_leads hsteps
    have hinner : v ∈ visible ++ steps.flatMap Step.binds → v ∈ visible ∨
        v ∈ (firstMatch steps columns).binds ∨ v ∈ (firstMatch steps columns).locals :=
      fun hv => (List.mem_append.mp hv).imp_right Or.inr
    rcases List.mem_append.mp hv with hv | hv
    · rw [List.mem_cons] at hv
      rcases hv with rfl | hv
      · exact Or.inr (Or.inl (List.mem_singleton.mpr rfl))
      · rw [List.mem_append] at hv
        rcases hv with hv | hv
        · obtain ⟨s, hs, hv⟩ := List.mem_flatMap.mp hv
          rw [List.mem_append] at hv
          rcases hv with hv | hv
          · exact Or.inr (Or.inr (List.mem_flatMap.mpr ⟨s, hs, hv⟩))
          · exact hinner (hreads s hs v hv)
        · obtain ⟨e, he, rfl⟩ := List.mem_map.mp hv
          exact hinner (hcolumns e he)
    · exact Or.inr (Or.inl hv)
  | neighbours index cardinality edges =>
    have hdoc := h.reads .doc (List.mem_singleton.mpr rfl)
    simp only [Clause.mentions, List.mem_cons, List.not_mem_nil, or_false] at hv
    rcases hv with rfl | rfl | rfl | rfl
    · exact Or.inr (Or.inl (List.mem_singleton.mpr rfl))
    · exact Or.inr (Or.inr (List.mem_singleton.mpr rfl))
    · exact Or.inl hdoc
    · exact Or.inr (Or.inr (List.mem_singleton.mpr rfl))
  | collect groups totals =>
    rcases List.mem_append.mp hv with hv | hv
    · obtain ⟨vs, hvs, hv⟩ := List.mem_flatten.mp hv
      obtain ⟨n, hn, rfl⟩ := List.mem_mapIdx.mp hvs
      rcases List.mem_pair.mp hv with rfl | rfl
      · refine Or.inr (Or.inl (List.mem_append_left _ (List.mem_map_of_mem ?_)))
        exact List.mem_range.mpr hn
      · refine Or.inl (h.reads _ (List.mem_append_left _ (List.mem_map_of_mem ?_)))
        exact List.getElem_mem hn
    · obtain ⟨vs, hvs, hv⟩ := List.mem_flatten.mp hv
      obtain ⟨n, hn, rfl⟩ := List.mem_mapIdx.mp hvs
      rcases List.mem_pair.mp hv with rfl | rfl
      · refine Or.inr (Or.inl (List.mem_append_right _ (List.mem_map_of_mem ?_)))
        exact List.mem_range.mpr hn
      · refine Or.inl (h.reads _ (List.mem_append_right _ (List.mem_map.mpr ⟨totals[n], ?_, rfl⟩)))
        exact List.getElem_mem hn
  | sort keys => exact Or.inl (h.reads v hv)
  | limit offset count => cases hv

end GraphMapper.Aql
