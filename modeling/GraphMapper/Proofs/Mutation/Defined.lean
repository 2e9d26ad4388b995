import GraphMapper.Proofs.Mutation.Written
import GraphMapper.Proofs.Provision.Definitions
import GraphMapper.Proofs.Relation.Represented

/-!
# Edges as the graphs define them

Every statement of a mutation that adds or removes edges agrees with the graph definitions: its edge
collection has one definition, and each end that the statement gives is a document in the collection
that the definition has at that end (`Mutation.agrees_definitions`). What a mutation writes suits a
link, and every link has a definition of its own.

A store that respects the links therefore does so after every mutation, and wherever one stops
(`Mapper.Resolved.respectedBy_run`).
-/

namespace GraphMapper

open Outcome Aql

/-! ## Agreeing with definitions -/

/-- The edge collection of a command, with the slots for the ends that the command gives. -/
def Aql.Command.edgeEnds? : Command → Option (String × List (EdgeEnd × Slot))
  | insertEdge source target collection => some (collection, [(.source, source), (.target, target)])
  | removeEdges collection ends => some (collection, ends)
  | _ => none

/-- The document collections that are defined for an end. -/
def EdgeDefinition.ends (d : EdgeDefinition) : EdgeEnd → List String
  | .source => d.sources
  | .target => d.targets

/-- The slot has the handle of a document in the collection as its value. -/
def Statement.LiesIn (st : Statement) (slot : Slot) (collection : String) : Prop :=
  ∃ key, st.text? slot = some (Handle.text ⟨collection, key⟩)

/-- The edge collection of the statement, if it has one, is defined once, and what it gives for an end
lies in the collection that is defined there. -/
def Statement.Agrees (st : Statement) (definitions : List GraphDefinition) : Prop :=
  ∀ collection ends, st.command.edgeEnds? = some (collection, ends) → ends ≠ [] ∧
    ∃ d, (definitions.flatMap (·.edges)).filter (·.collection = collection) = [d] ∧
      ∀ e ∈ ends, ∃ documents, d.ends e.1 = [documents] ∧ st.LiesIn e.2 documents

theorem Link.ends_definition (l : Link) (stop : EdgeEnd) :
    l.definition.ends stop = [l.collectionAt stop] := by
  cases stop <;> rfl

/-- The statement is one on the records of the link, with ends that lie where the link has them. -/
structure Statement.Suits (st : Statement) (l : Link) (ends : List (EdgeEnd × Slot)) : Prop where
  edgeEnds : st.command.edgeEnds? = some (l.collection, ends)
  nonempty : ends ≠ []
  lies : ∀ e ∈ ends, st.LiesIn e.2 (l.collectionAt e.1)

theorem Statement.Suits.agrees {st : Statement} {l : Link} {ends : List (EdgeEnd × Slot)}
    (h : st.Suits l ends) {t : Topology} (hnodup : (t.links.map (·.collection)).Nodup)
    (hl : l ∈ t.links) : st.Agrees t.definitions := by
  intro collection ends' hends
  obtain ⟨rfl, rfl⟩ := Prod.mk.inj (Option.some.inj (h.edgeEnds.symm.trans hends))
  refine ⟨h.nonempty, l.definition, ?_, fun e he => ?_⟩
  · exact filter_eq_singleton (Topology.definitions_collections_nodup hnodup)
      (Topology.definition_mem hnodup hl)
  · exact ⟨_, l.ends_definition e.1, h.lies e he⟩

/-! ## Suiting a link -/

/-- A closed statement has a given handle in the collection of that handle. -/
theorem Statement.liesIn_closed {command : Command} {values : List (Slot × Json)} {slot : Slot}
    {handle : Handle} (hnodup : (values.map fun v => v.1.name).Nodup)
    (h : (slot, handle.toJson) ∈ values) {collection : String}
    (hcollection : handle.collection = collection) :
    (closed command values).LiesIn slot collection :=
  ⟨handle.key, hcollection ▸ text?_closed hnodup h⟩

/-- A removal suits a link when the handles that it selects lie at the ends of the link. -/
theorem Statement.suits_removeEdges {l : Link} {ends : List (EdgeEnd × Slot × Handle)}
    (hnonempty : ends ≠ []) (hnodup : (ends.map fun e => e.2.1.name).Nodup)
    (h : ∀ e ∈ ends, e.2.2.collection = l.collectionAt e.1) :
    (closed (.removeEdges l.collection (ends.map fun e => (e.1, e.2.1)))
      (ends.map fun e => (e.2.1, e.2.2.toJson))).Suits l (ends.map fun e => (e.1, e.2.1)) := by
  have hvalues : ((ends.map fun e => (e.2.1, e.2.2.toJson)).map fun v => v.1.name).Nodup := by
    rwa [List.map_map]
  refine ⟨rfl, by simpa using hnonempty, ?_⟩
  rw [List.forall_mem_map]
  exact fun e he => liesIn_closed hvalues (List.mem_map_of_mem he) (h e he)

/-- An insertion suits a link when it leads from one of its collections to the other. -/
theorem Statement.suits_insertEdge {l : Link} {start stop : Handle}
    (hstart : start.collection = l.fromCollection) (hstop : stop.collection = l.toCollection) :
    (closed (.insertEdge (.named "from") (.named "to") l.collection)
      [(.named "from", start.toJson), (.named "to", stop.toJson)]).Suits l
        [(.source, .named "from"), (.target, .named "to")] := by
  refine ⟨rfl, List.cons_ne_nil _ _, ?_⟩
  rw [List.forall_mem_cons, List.forall_mem_singleton]
  constructor
  · exact liesIn_closed (by simp [Slot.name]) (by simp) hstart
  · exact liesIn_closed (by simp [Slot.name]) (by simp) hstop

section

variable {m : Mapper} (hm : m.Resolved)
include hm

/-- Whatever a mutation writes about edges suits a link. -/
theorem Mapper.Writes.suits {st : Statement} (h : m.Writes st) :
    st.command.edgeEnds? = none ∨ ∃ l ∈ m.topology.links, ∃ ends, st.Suits l ends := by
  obtain ⟨ds, hds, ht⟩ := hm.topology
  cases h with
  | insertDocument _ => exact Or.inl rfl
  | updateDocument _ => exact Or.inl rfl
  | removeDocument _ => exact Or.inl rfl
  | @clear h handle target entry hp hentry hsource htarget =>
    obtain ⟨l, hl, hcollection, hown, hother⟩ :=
      ht.link_of_edgeCollections hm.wellFormed hds hp hentry
    obtain ⟨direction, collection⟩ := entry
    obtain rfl : l.collection = collection := hcollection
    let ends := (direction.ownEnd, Slot.named "source", handle) ::
      (target.map fun t => (direction.otherEnd, Slot.named "target", t)).toList
    have hnodup : (ends.map fun e => e.2.1.name).Nodup := by
      cases target <;> simp [ends, Slot.name]
    have hends : ∀ e ∈ ends, e.2.2.collection = l.collectionAt e.1 := by
      refine List.forall_mem_cons.mpr ⟨hsource.trans hown.symm, ?_⟩
      cases target with
      | none => simp
      | some other => simpa using (htarget other rfl).trans hother.symm
    exact Or.inr ⟨l, hl, _, Statement.suits_removeEdges (List.cons_ne_nil _ _) hnodup hends⟩
  | @insertEdge h source target hp hsource htarget =>
    have hsuits : (h.insertEdge source target).Suits h.link
        [(.source, .named "from"), (.target, .named "to")] := by
      unfold Hop.sourceCollection at hsource
      rw [Hop.targetCollection_eq] at htarget
      unfold Hop.insertEdge
      cases hdirection : h.direction with
      | outbound =>
        rw [hdirection] at hsource htarget
        exact Statement.suits_insertEdge hsource htarget
      | inbound =>
        rw [hdirection] at hsource htarget
        exact Statement.suits_insertEdge htarget hsource
    exact Or.inr ⟨h.link, Topology.Resolves.link_mem hp, _, hsuits⟩
  | @detach l handle stop hl hcollection =>
    let ends := [(stop, Slot.named "handle", handle)]
    have hends : ∀ e ∈ ends, e.2.2.collection = l.collectionAt e.1 :=
      List.forall_mem_singleton.mpr hcollection
    have hnodup : (ends.map fun e => e.2.1.name).Nodup := List.nodup_singleton _
    exact Or.inr ⟨l, hl, _, Statement.suits_removeEdges (List.cons_ne_nil _ _) hnodup hends⟩

/-- Every statement of a mutation agrees with the definitions of the graphs: what it inserts, and what
it compares before it removes. -/
theorem Mutation.agrees_definitions {mutation : Mutation} {statements : List Statement}
    (hrun : mutation.statements m = .ok statements) :
    ∀ st ∈ statements, st.Agrees m.topology.definitions := by
  obtain ⟨ds, -, ht⟩ := hm.topology
  intro st hst
  rcases (Mutation.writes hm hrun st hst).suits hm with hnone | ⟨l, hl, ends, hsuits⟩
  · intro collection ends hends
    rw [hnone] at hends
    cases hends
  · exact hsuits.agrees ht.links_nodup hl

end

/-- An owner is swept from both edge collections of the account before the new one is inserted. -/
theorem Mutation.agrees_definitions_owner :
    let mutation := edges (.link ⟨"accounts", "1"⟩ "owner" ⟨"people", "1"⟩)
    ∃ statements, mutation.statements Bank.mapper = .ok statements ∧
      statements.map (fun st => st.command.edgeEnds?.map Prod.fst) =
        [some "owned_by", some "holds", some "owned_by"] ∧
      ∀ st ∈ statements, st.Agrees Bank.mapper.topology.definitions := by
  intro mutation
  have hcollections : ((mutation.statements Bank.mapper).map fun statements =>
      statements.map fun st => st.command.edgeEnds?.map Prod.fst).toOption =
      some [some "owned_by", some "holds", some "owned_by"] := by decide +kernel
  cases hrun : mutation.statements Bank.mapper with
  | error _ =>
    rw [hrun] at hcollections
    cases hcollections
  | ok statements =>
    rw [hrun] at hcollections
    exact ⟨statements, rfl, Option.some.inj hcollections,
      agrees_definitions Bank.mapper_resolved hrun⟩

/-! ## Stores that respect the links -/

/-- The records of the collection of a link lie in the document collections of the link. -/
def Topology.RespectedBy (t : Topology) (store : EdgeStore) : Prop :=
  ∀ l ∈ t.links, ∀ r ∈ store, r.collection = l.collection →
    ∀ stop : EdgeEnd, ∃ key, stop.of r = Handle.text ⟨l.collectionAt stop, key⟩

theorem Topology.RespectedBy.mono {t : Topology} {store store' : EdgeStore}
    (h : t.RespectedBy store) (hsubset : store' ⊆ store) : t.RespectedBy store' :=
  fun l hl r hr => h l hl r (hsubset hr)

/-- Statements that suit a link keep stores that respect the links. -/
theorem Topology.RespectedBy.runEdges {t : Topology} (hnodup : (t.links.map (·.collection)).Nodup)
    {store : EdgeStore} (h : t.RespectedBy store) {st : Statement}
    (hst : st.command.edgeEnds? = none ∨ ∃ l ∈ t.links, ∃ ends, st.Suits l ends) :
    t.RespectedBy (st.runEdges store) := by
  cases hcommand : st.command with
  | removeEdges collection ends =>
    exact h.mono fun r hr => ((Statement.mem_runEdges_removeEdges hcommand).mp hr).1
  | insertEdge source target collection =>
    rw [hcommand] at hst
    obtain ⟨l, hl, ends, hsuits⟩ := hst.resolve_left (by simp [Command.edgeEnds?])
    have hends := hsuits.edgeEnds
    rw [hcommand] at hends
    obtain ⟨rfl, rfl⟩ := Prod.mk.inj (Option.some.inj hends)
    obtain ⟨start, hstart⟩ := hsuits.lies (.source, source) (by simp)
    obtain ⟨stop, hstop⟩ := hsuits.lies (.target, target) (by simp)
    rw [Statement.runEdges_insertEdge hcommand hstart hstop]
    intro l' hl' r hr hcollection
    rcases Finset.mem_insert.mp hr with rfl | hr
    · obtain rfl : l = l' := List.inj_on_of_nodup_map hnodup hl hl' hcollection
      rintro (_ | _)
      · exact ⟨start, rfl⟩
      · exact ⟨stop, rfl⟩
    · exact h l' hl' r hr hcollection
  | _ => simpa only [Statement.runEdges, hcommand] using h

/-- The stores that mutations lead to from the empty one. A mutation may stop between its statements. -/
inductive Mapper.Reaches (m : Mapper) : EdgeStore → Prop
  | empty : Reaches m ∅
  | run {store : EdgeStore} {mutation : Mutation} {statements done : List Statement} :
      Reaches m store → mutation.statements m = .ok statements → done <+: statements →
      Reaches m (runEdges done store)

/-- Mutations keep stores that respect the links, wherever they stop. -/
theorem Mapper.Resolved.respectedBy_run {m : Mapper} (hm : m.Resolved) {mutation : Mutation}
    {statements done : List Statement} (hrun : mutation.statements m = .ok statements)
    (hdone : done <+: statements) {store : EdgeStore} (h : m.topology.RespectedBy store) :
    m.topology.RespectedBy (runEdges done store) := by
  obtain ⟨ds, -, ht⟩ := hm.topology
  have hwrites : m.WritesAll done := fun st hst =>
    Mutation.writes hm hrun st (hdone.subset hst)
  clear hdone
  induction done generalizing store with
  | nil => exact h
  | cons st rest ih =>
    obtain ⟨hfirst, hrest⟩ := List.forall_mem_cons.mp hwrites
    exact ih (h.runEdges ht.links_nodup (hfirst.suits hm)) hrest

theorem Mapper.Resolved.respectedBy {m : Mapper} (hm : m.Resolved) {store : EdgeStore}
    (h : m.Reaches store) : m.topology.RespectedBy store := by
  induction h with
  | empty => exact fun l _ r hr => absurd hr (Finset.notMem_empty r)
  | run _ hrun hdone ih => exact hm.respectedBy_run hrun hdone ih

end GraphMapper
