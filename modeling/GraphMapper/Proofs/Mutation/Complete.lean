import GraphMapper.Proofs.Aql.Binding
import GraphMapper.Proofs.Mutation.Written
import GraphMapper.Proofs.Relation.Names

/-!
# Statements that change documents and edges

Every statement of a mutation is complete: its slots have their values from the start, and it shows no
names but those of collections (`Mutation.complete`).
-/

namespace GraphMapper

open Outcome Aql

/-! ## Removals of edges -/

theorem Aql.Command.parts_removeEdges (collection : String) (ends : List (EdgeEnd × Slot)) :
    (removeEdges collection ends).parts = [Part.var .edge, .collection collection] ++
      (ends.flatMap fun e => [Part.var .edge, .slot e.2]) ++ [.var .edge, .collection collection] :=
  rfl

theorem Aql.Command.slots_removeEdges (collection : String) (ends : List (EdgeEnd × Slot)) :
    (removeEdges collection ends).slots = ends.map Prod.snd := by
  have hends : (ends.flatMap fun e => [Part.var .edge, .slot e.2]).filterMap Part.slot? =
      ends.map Prod.snd := by
    induction ends with
    | nil => rfl
    | cons e rest ih =>
      rw [List.flatMap_cons, List.filterMap_append, ih]
      rfl
  rw [slots, parts_removeEdges, List.filterMap_append, List.filterMap_append, hends]
  exact List.append_nil _

/-- A removal has the values of the ends that it selects. -/
theorem complete_removeEdges {collection : String} {ends : List (EdgeEnd × Slot)}
    {values : List (Slot × Json)} (hcollection : Text.isIdentifier collection = true)
    (hvalues : ends.map Prod.snd = values.map Prod.fst)
    (hends : ∀ e ∈ ends, (Part.slot e.2).Contained) :
    (Statement.closed (.removeEdges collection ends) values).Complete := by
  refine .closed ((Command.slots_removeEdges collection ends).trans hvalues) ?_
  have hloop : ∀ p ∈ [Part.var .edge, .collection collection], p.Contained :=
    List.forall_mem_cons.mpr ⟨.var _, List.forall_mem_singleton.mpr (.collection hcollection)⟩
  rw [Command.parts_removeEdges]
  refine List.forall_mem_append.mpr ⟨List.forall_mem_append.mpr ⟨hloop, fun p hp => ?_⟩, hloop⟩
  obtain ⟨e, he, hp⟩ := List.mem_flatMap.mp hp
  rcases List.mem_pair.mp hp with rfl | rfl
  · exact .var _
  · exact hends e he

/-! ## Mutations -/

/-- Whatever a mutation writes is complete. -/
theorem Mapper.Writes.complete {m : Mapper} (hm : m.Resolved) {st : Statement} (h : m.Writes st) :
    st.Complete := by
  obtain ⟨ds, hds, ht⟩ := hm.topology
  have hcollection : ∀ e ∈ m.schema.all, (Part.collection e.collectionName).Contained :=
    fun e he => .collection (hm.wellFormed.isIdentifier_collectionName he)
  cases h with
  | insertDocument he =>
    refine .closed rfl ?_
    simpa [Command.parts] using ⟨.named (by decide), hcollection _ he⟩
  | updateDocument he =>
    refine .closed rfl ?_
    simpa [Command.parts] using ⟨.named (by decide), .named (by decide), hcollection _ he⟩
  | removeDocument he =>
    refine .closed rfl ?_
    simpa [Command.parts] using ⟨.named (by decide), hcollection _ he⟩
  | @clear h handle target entry hp hentry hsource htarget =>
    obtain ⟨l, hl, hname, -⟩ := ht.link_of_edgeCollections hm.wellFormed hds hp hentry
    refine complete_removeEdges (hname ▸ hm.isIdentifier_link hl) (by simp) ?_
    cases target with
    | none => simpa using .named (by decide)
    | some t => simpa using ⟨.named (by decide), .named (by decide)⟩
  | @insertEdge h source target hp hsource htarget =>
    have hlink := Part.Contained.collection (hm.isIdentifier_link (Topology.Resolves.link_mem hp))
    have hparts : ∀ p ∈ (Command.insertEdge (.named "from") (.named "to") h.link.collection).parts,
        p.Contained := by
      simpa [Command.parts] using ⟨.named (by decide), .named (by decide), hlink⟩
    unfold Hop.insertEdge
    split
    exact .closed rfl hparts
  | detach hl hcollection =>
    exact complete_removeEdges (hm.isIdentifier_link hl) rfl (by simpa using .named (by decide))

theorem Mutation.complete {m : Mapper} (hm : m.Resolved) {mutation : Mutation}
    {statements : List Statement} (hrun : mutation.statements m = .ok statements) :
    ∀ st ∈ statements, st.Complete :=
  fun st hst => (Mutation.writes hm hrun st hst).complete hm

theorem Mapper.read_complete {m : Mapper} {handle : Handle} {st : Statement}
    (hrun : m.read handle = .ok st) : st.Complete := by
  obtain ⟨_, -, hrun⟩ := bind_eq_ok.mp hrun
  obtain rfl := pure_eq_ok.mp hrun
  exact .closed rfl (List.forall_mem_singleton.mpr (.literal 0))

end GraphMapper
