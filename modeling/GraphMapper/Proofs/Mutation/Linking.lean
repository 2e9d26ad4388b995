import GraphMapper.Proofs.Mutation.EdgeStore

/-!
# Edge calls as updates of a relation

The pairs that a hop reads are a binary relation on documents. Each of the three calls on edges
(`EdgeCall`) turns that relation into another one (`EdgeCall.update`) and leaves the records of all
other collections as they were (`Hop.Updates`), whatever the directions and collections behind it.

The argument follows the statements: a sweep and an insertion are updates of their own, updates
compose, and for many targets the induction keeps the pairs that were inserted before: a later sweep
at a target only takes pairs of that target, which is inserted again.
-/

namespace GraphMapper

open Outcome

/-! ## Calls -/

/-- A call that changes the edges of a relation of a document. -/
inductive EdgeCall where
  | link (source : Handle) (relation : String) (target : Handle)
  | assign (source : Handle) (relation : String) (targets : List Handle)
  /-- Without a target, all edges of the relation go. -/
  | unlink (source : Handle) (relation : String) (target : Option Handle)
  deriving DecidableEq, Repr

namespace EdgeCall

def source : EdgeCall → Handle
  | link source _ _ => source
  | assign source _ _ => source
  | unlink source _ _ => source

def relation : EdgeCall → String
  | link _ relation _ => relation
  | assign _ relation _ => relation
  | unlink _ relation _ => relation

/-- The statements that a mapper makes for a call. -/
def statements (m : Mapper) : EdgeCall → Except Error (List Statement)
  | link source relation target => m.link source relation target
  | assign source relation targets => m.assign source relation targets
  | unlink source relation target => m.unlink source relation target

/-- The pairs of the relation after a call on the pairs `R`. A source holds one document if `own`,
and a target does, as it sees the relation, if `other`. -/
def update (own other : Prop) (R : String → String → Prop) (x y : String) : EdgeCall → Prop
  | link source _ target =>
    (R x y ∧ ¬ (own ∧ x = source.text) ∧ ¬ (other ∧ y = target.text)) ∨
      (x = source.text ∧ y = target.text)
  | assign source _ targets =>
    (R x y ∧ x ≠ source.text ∧ ¬ (other ∧ ∃ t ∈ targets, y = t.text)) ∨
      (x = source.text ∧ ∃ t ∈ targets, y = t.text)
  | unlink source _ target => R x y ∧ ¬ (x = source.text ∧ ∀ t ∈ target, y = t.text)

end EdgeCall

/-! ## Updates -/

namespace Hop

/-- A hop reads the pairs `after` in the new store, and other collections have not changed. -/
structure Updates (h : Hop) (store store' : EdgeStore) (after : String → String → Prop) :
    Prop where
  reads_iff : ∀ x y, h.Reads store' x y ↔ after x y
  frame : ∀ r, r.collection ∉ h.collections → (r ∈ store' ↔ r ∈ store)

variable {h : Hop} {store store' store'' : EdgeStore} {after after' : String → String → Prop}

theorem Updates.refl (h : Hop) (store : EdgeStore) : h.Updates store store (h.Reads store) :=
  ⟨fun _ _ => Iff.rfl, fun _ _ => Iff.rfl⟩

theorem Updates.trans (h1 : h.Updates store store' after) (h2 : h.Updates store' store'' after') :
    h.Updates store store'' after' :=
  ⟨h2.reads_iff, fun r hr => (h2.frame r hr).trans (h1.frame r hr)⟩

theorem Updates.congr (h1 : h.Updates store store' after) (heq : ∀ x y, after x y ↔ after' x y) :
    h.Updates store store' after' :=
  ⟨fun x y => (h1.reads_iff x y).trans (heq x y), h1.frame⟩

theorem sweep_updates (h : Hop) (handle : Handle) (target : Option Handle) (store : EdgeStore) :
    h.Updates store (runEdges (h.sweep handle target) store) fun x y =>
      h.Reads store x y ∧ ¬ (x = handle.text ∧ ∀ t ∈ target, y = t.text) :=
  ⟨fun _ _ => reads_sweep, fun _ => mem_sweep_of_notMem⟩

theorem insertEdge_updates (h : Hop) (source target : Handle) (store : EdgeStore) :
    h.Updates store (runEdges [h.insertEdge source target] store) fun x y =>
      h.Reads store x y ∨ (x = source.text ∧ y = target.text) :=
  ⟨fun _ _ => reads_insertEdge, fun _ => mem_insertEdge_of_notMem⟩

/-- The removals at a source that holds one document. -/
def clearOwn (h : Hop) (source : Handle) : List Statement :=
  if h.cardinality = .one then h.sweep source none else []

theorem clearOwn_updates (h : Hop) (source : Handle) (store : EdgeStore) :
    h.Updates store (runEdges (h.clearOwn source) store) fun x y =>
      h.Reads store x y ∧ ¬ (h.cardinality = .one ∧ x = source.text) := by
  unfold clearOwn
  split
  · next hone => exact (h.sweep_updates source none store).congr (by simp [hone])
  · next hmany => exact (Updates.refl h store).congr (by simp [hmany])

/-- As its target sees it, the hop leads to one document. -/
def OneBack (h : Hop) : Prop := ∃ b ∈ h.opposite, b.cardinality = .one

/-- The removals at a target that holds one document. -/
def clearBack (h : Hop) (target : Handle) : List Statement :=
  match h.opposite with
  | some back => if back.cardinality = .one then back.sweep target none else []
  | none => []

section

variable {t : Topology} {s : Schema} {ds : List Declaration} (ht : t.Resolves s ds)
  (hp : h.place ∈ t.places)
include ht hp

theorem clearBack_updates (target : Handle) (store : EdgeStore) :
    h.Updates store (runEdges (h.clearBack target) store) fun x y =>
      h.Reads store x y ∧ ¬ (h.OneBack ∧ y = target.text) := by
  unfold clearBack OneBack
  cases hb : h.opposite with
  | none => exact (Updates.refl h store).congr (by simp)
  | some b =>
    dsimp only
    split
    · next hone =>
      constructor
      · intro x y
        rw [← reads_opposite ht hp hb, reads_sweep, reads_opposite ht hp hb]
        simp [hone]
      · intro r hr
        exact mem_sweep_of_notMem fun hmem => hr ((mem_collections_opposite ht hp hb).mp hmem)
    · next hmany => exact (Updates.refl h store).congr (by simp [hmany])

theorem connect_eq (source target : Handle) :
    t.connect h source target = .ok (h.clearBack target ++ [h.insertEdge source target]) := by
  rw [Topology.connect, ht.back_eq hp, clearBack]
  cases h.opposite <;> rfl

/-- Connecting adds a pair, after the target has given up its own if it holds one document. -/
theorem connect_updates {source target : Handle} {statements : List Statement}
    (hrun : t.connect h source target = .ok statements) (store : EdgeStore) :
    h.Updates store (runEdges statements store) fun x y =>
      (h.Reads store x y ∧ ¬ (h.OneBack ∧ y = target.text)) ∨
        (x = source.text ∧ y = target.text) := by
  obtain rfl := Except.ok.inj ((connect_eq ht hp source target).symm.trans hrun)
  rw [runEdges_append]
  have hback := clearBack_updates ht hp target store
  apply (hback.trans (h.insertEdge_updates source target _)).congr
  intro x y
  rw [hback.reads_iff]

end

end Hop

/-! ## The statements of a call -/

namespace Mapper

variable {m : Mapper} {source : Handle} {relation : String} {statements : List Statement}

theorem checkTarget_eq_ok {h : Hop} {target : Handle} :
    h.checkTarget relation target = .ok () ↔ target.collection = h.targetCollection := by
  unfold Hop.checkTarget
  split <;> simp_all

theorem link_eq_ok {target : Handle} (hrun : m.link source relation target = .ok statements) :
    ∃ h connected, m.hopOf source relation = .ok h ∧
      target.collection = h.targetCollection ∧
      m.topology.connect h source target = .ok connected ∧
      statements = h.clearOwn source ++ connected := by
  obtain ⟨h, hh, hrun⟩ := bind_eq_ok.mp hrun
  obtain ⟨_, hcheck, hrun⟩ := bind_eq_ok.mp hrun
  obtain ⟨connected, hconnect, hrun⟩ := bind_eq_ok.mp hrun
  exact ⟨h, connected, hh, checkTarget_eq_ok.mp hcheck, hconnect, (pure_eq_ok.mp hrun).symm⟩

theorem unlink_eq_ok {target : Option Handle}
    (hrun : m.unlink source relation target = .ok statements) :
    ∃ h, m.hopOf source relation = .ok h ∧ statements = h.sweep source target := by
  obtain ⟨h, hh, hrun⟩ := bind_eq_ok.mp hrun
  refine ⟨h, hh, ?_⟩
  cases target with
  | none => exact (pure_eq_ok.mp hrun).symm
  | some t =>
    obtain ⟨_, _, hrun⟩ := bind_eq_ok.mp hrun
    exact (pure_eq_ok.mp hrun).symm

theorem assign_eq_ok {targets : List Handle}
    (hrun : m.assign source relation targets = .ok statements) :
    ∃ h connected, m.hopOf source relation = .ok h ∧
      ¬ (h.cardinality = .one ∧ 1 < targets.length) ∧
      m.connectAll h source relation targets = .ok connected ∧
      statements = h.sweep source none ++ connected := by
  obtain ⟨h, hh, hrun⟩ := bind_eq_ok.mp hrun
  obtain ⟨hfew, hrun⟩ := guard_eq_ok.mp hrun
  obtain ⟨connected, hconnect, hrun⟩ := bind_eq_ok.mp hrun
  exact ⟨h, connected, hh, hfew, hconnect, (pure_eq_ok.mp hrun).symm⟩

/-- Targets that have been connected lie where the hop leads. -/
theorem connectAll_targets {h : Hop} {targets : List Handle}
    (hrun : m.connectAll h source relation targets = .ok statements) :
    ∀ t ∈ targets, t.collection = h.targetCollection := by
  induction targets generalizing statements with
  | nil => simp
  | cons target rest ih =>
    obtain ⟨_, hcheck, hrun⟩ := bind_eq_ok.mp hrun
    obtain ⟨_, _, hrun⟩ := bind_eq_ok.mp hrun
    obtain ⟨_, hothers, _⟩ := bind_eq_ok.mp hrun
    exact List.forall_mem_cons.mpr ⟨checkTarget_eq_ok.mp hcheck, ih hothers⟩

/-- Targets can be connected when they lie where the hop leads. -/
theorem exists_connectAll_iff {ds : List Declaration} (ht : m.topology.Resolves m.schema ds)
    {h : Hop} (hp : h.place ∈ m.topology.places) {targets : List Handle} :
    (∃ statements, m.connectAll h source relation targets = .ok statements) ↔
      ∀ t ∈ targets, t.collection = h.targetCollection := by
  constructor
  · rintro ⟨statements, hrun⟩
    exact connectAll_targets hrun
  · intro htargets
    induction targets with
    | nil => exact ⟨[], rfl⟩
    | cons target rest ih =>
      rw [List.forall_mem_cons] at htargets
      obtain ⟨others, hothers⟩ := ih htargets.2
      have hcheck : h.checkTarget relation target = .ok () := checkTarget_eq_ok.mpr htargets.1
      have hconnect := Hop.connect_eq ht hp source target
      refine ⟨h.clearBack target ++ [h.insertEdge source target] ++ others, ?_⟩
      refine bind_eq_ok.mpr ⟨(), hcheck, bind_eq_ok.mpr ⟨_, hconnect, ?_⟩⟩
      exact bind_eq_ok.mpr ⟨others, hothers, rfl⟩

/-- Edges can be made when the targets are not too many and lie where the hop leads. -/
theorem exists_assignEdges_iff (hm : m.Resolved) {targets : List Handle} {clear : Bool} :
    (∃ statements, m.assignEdges source relation targets clear = .ok statements) ↔
      ∃ h, m.hopOf source relation = .ok h ∧ (h.cardinality = .one → targets.length ≤ 1) ∧
        ∀ t ∈ targets, t.collection = h.targetCollection := by
  obtain ⟨ds, -, ht⟩ := hm.topology
  constructor
  · rintro ⟨statements, hrun⟩
    obtain ⟨h, hh, hrun⟩ := bind_eq_ok.mp hrun
    obtain ⟨hfew, hrun⟩ := guard_eq_ok.mp hrun
    obtain ⟨connected, hconnect, -⟩ := bind_eq_ok.mp hrun
    refine ⟨h, hh, fun hone => ?_, connectAll_targets hconnect⟩
    exact Nat.le_of_not_lt fun hmany => hfew ⟨hone, hmany⟩
  · rintro ⟨h, hh, hfew, htargets⟩
    have hconnects : ∃ connected, m.connectAll h source relation targets = .ok connected :=
      (exists_connectAll_iff ht (hm.place_of_hopOf hh)).mpr htargets
    obtain ⟨connected, hconnect⟩ := hconnects
    refine ⟨(if clear then h.sweep source none else []) ++ connected, ?_⟩
    refine bind_eq_ok.mpr ⟨h, hh, guard_eq_ok.mpr ⟨?_, ?_⟩⟩
    · rintro ⟨hone, hmany⟩
      exact Nat.not_lt.mpr (hfew hone) hmany
    · exact bind_eq_ok.mpr ⟨connected, hconnect, rfl⟩

/-- Connecting to all targets, one after the other. -/
theorem connectAll_updates {ds : List Declaration} (ht : m.topology.Resolves m.schema ds) {h : Hop}
    (hp : h.place ∈ m.topology.places) {targets : List Handle}
    (hrun : m.connectAll h source relation targets = .ok statements) (store : EdgeStore) :
    h.Updates store (runEdges statements store) fun x y =>
      (h.Reads store x y ∧ ¬ (h.OneBack ∧ ∃ t ∈ targets, y = t.text)) ∨
        (x = source.text ∧ ∃ t ∈ targets, y = t.text) := by
  induction targets generalizing statements store with
  | nil =>
    obtain rfl := Except.ok.inj hrun
    exact (Hop.Updates.refl h store).congr (by simp)
  | cons target rest ih =>
    obtain ⟨_, _, hrun⟩ := bind_eq_ok.mp hrun
    obtain ⟨connected, hconnect, hrun⟩ := bind_eq_ok.mp hrun
    obtain ⟨others, hothers, hrun⟩ := bind_eq_ok.mp hrun
    obtain rfl := pure_eq_ok.mp hrun
    rw [runEdges_append]
    have hfirst := Hop.connect_updates ht hp hconnect store
    apply (hfirst.trans (ih hothers _)).congr
    intro x y
    rw [hfirst.reads_iff]
    simp only [List.mem_cons, exists_eq_or_imp]
    -- a later sweep takes the pair of the first target only if that target is linked again
    generalize (∃ t ∈ rest, y = t.text) = again
    generalize (y = target.text) = first
    tauto

end Mapper

/-! ## The effect of a call -/

namespace EdgeCall

variable {m : Mapper} {statements : List Statement}

/-- A call updates the pairs of its relation, and nothing else. -/
theorem updates (hm : m.Resolved) {c : EdgeCall} (hrun : c.statements m = .ok statements) :
    ∃ h, m.hopOf c.source c.relation = .ok h ∧ ∀ store, h.Updates store (runEdges statements store)
      fun x y => c.update (h.cardinality = .one) h.OneBack (h.Reads store) x y := by
  obtain ⟨ds, -, ht⟩ := hm.topology
  cases c with
  | link source relation target =>
    obtain ⟨h, connected, hh, -, hconnect, rfl⟩ := Mapper.link_eq_ok hrun
    refine ⟨h, hh, ?_⟩
    intro store
    rw [runEdges_append]
    have hown := h.clearOwn_updates source store
    have hconnected := Hop.connect_updates ht (hm.place_of_hopOf hh) hconnect
    apply (hown.trans (hconnected _)).congr
    intro x y
    rw [hown.reads_iff, and_assoc]
    rfl
  | assign source relation targets =>
    obtain ⟨h, connected, hh, -, hconnect, rfl⟩ := Mapper.assign_eq_ok hrun
    refine ⟨h, hh, ?_⟩
    intro store
    rw [runEdges_append]
    have hcleared := h.sweep_updates source none store
    have hconnected := Mapper.connectAll_updates ht (hm.place_of_hopOf hh) hconnect
    apply (hcleared.trans (hconnected _)).congr
    intro x y
    rw [hcleared.reads_iff]
    simp [update, and_assoc]
  | unlink source relation target =>
    obtain ⟨h, hh, rfl⟩ := Mapper.unlink_eq_ok hrun
    exact ⟨h, hh, h.sweep_updates source target⟩

/-- A call whose statements are made turns the pairs of its relation into those that `update` gives,
where a source holds one document if the hop says so, and a target if the hop back says so. -/
theorem run_updates (hm : m.Resolved) {c : EdgeCall} (hrun : c.statements m = .ok statements) :
    ∃ h back, m.hopOf c.source c.relation = .ok h ∧ m.topology.back h = .ok back ∧
      ∀ store, h.Updates store (runEdges statements store) fun x y =>
        c.update (h.cardinality = .one) (∃ b ∈ back, b.cardinality = .one) (h.Reads store) x y := by
  obtain ⟨ds, -, ht⟩ := hm.topology
  obtain ⟨h, hh, hupdates⟩ := updates hm hrun
  exact ⟨h, h.opposite, hh, ht.back_eq (hm.place_of_hopOf hh), hupdates⟩

/-- Assigning the accounts of a person, each of which has one owner. -/
theorem run_updates_accounts :
    let c := assign ⟨"people", "1"⟩ "accounts" [⟨"accounts", "1"⟩, ⟨"accounts", "2"⟩]
    ∃ statements, c.statements Bank.mapper = .ok statements ∧
      ∃ h back, Bank.mapper.hopOf c.source c.relation = .ok h ∧
        Bank.mapper.topology.back h = .ok back ∧
        ∀ store, h.Updates store (runEdges statements store) fun x y =>
          c.update (h.cardinality = .one) (∃ b ∈ back, b.cardinality = .one) (h.Reads store) x y := by
  intro c
  have hok : (c.statements Bank.mapper).isOk = true := by decide +kernel
  obtain ⟨statements, hrun⟩ := exists_of_isOk hok
  exact ⟨statements, hrun, run_updates Bank.mapper_resolved hrun⟩

end EdgeCall

end GraphMapper
