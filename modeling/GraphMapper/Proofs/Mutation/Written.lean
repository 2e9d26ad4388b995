import GraphMapper.Mutation.Documents
import GraphMapper.Proofs.Mutation.Linking

/-!
# What mutations write

A mutation changes documents and edges by a list of statements, and `Mapper.Writes` says once what the
statements of such a list are (`Mutation.writes`). The side on which a document stands is found in four
ways: from the direction of the hop, from the flipped direction for the collection of the partner, from
the hop back as the target sees it, and from the two sweeps of a removal. In all of them the document
lies at the end of the hop or link that the statement is made for.
-/

namespace GraphMapper

open Outcome Aql

/-! ## Mutations -/

/-- What changes documents and edges. -/
inductive Mutation where
  /-- The key is used if the document has none. -/
  | insert (freshKey : String) (document : Document)
  | update (document : Document)
  | remove (entity key : String)
  | edges (call : EdgeCall)

/-- The statements that a mapper makes for a mutation. -/
def Mutation.statements (m : Mapper) : Mutation → Except Error (List Statement)
  | insert freshKey document => m.insert freshKey document
  | update document => m.update document
  | remove entity key => m.remove entity key
  | edges call => call.statements m

/-! ## What a mutation writes -/

/-- A statement of a mutation: one on a document of an entity, or one of those that are made for edges,
between documents that lie at the ends of the hop or link. -/
inductive Mapper.Writes (m : Mapper) : Statement → Prop
  | insertDocument {e : Entity} {stored : Json} : e ∈ m.schema.all →
      Writes m (.closed (.insertDocument (.named "doc") e.collectionName) [(.named "doc", stored)])
  | updateDocument {e : Entity} {key patch : Json} : e ∈ m.schema.all →
      Writes m (.closed (.updateDocument (.named "key") (.named "patch") e.collectionName)
        [(.named "key", key), (.named "patch", patch)])
  | removeDocument {e : Entity} {key : Json} : e ∈ m.schema.all →
      Writes m (.closed (.removeDocument (.named "key") e.collectionName) [(.named "key", key)])
  | clear {h : Hop} {handle : Handle} {target : Option Handle} {entry : Direction × String} :
      h.place ∈ m.topology.places → entry ∈ h.edgeCollections →
      handle.collection = h.sourceCollection → (∀ t ∈ target, t.collection = h.targetCollection) →
      Writes m (Hop.clear handle target entry)
  | insertEdge {h : Hop} {source target : Handle} :
      h.place ∈ m.topology.places → source.collection = h.sourceCollection →
      target.collection = h.targetCollection → Writes m (h.insertEdge source target)
  | detach {l : Link} {handle : Handle} {stop : EdgeEnd} :
      l ∈ m.topology.links → handle.collection = l.collectionAt stop →
      Writes m (Mapper.detach handle stop l)

/-- All of the statements are such as mutations write. -/
def Mapper.WritesAll (m : Mapper) (statements : List Statement) : Prop :=
  ∀ st ∈ statements, m.Writes st

/-! ## Statements along a hop -/

namespace Mapper

section

variable {m : Mapper}

theorem WritesAll.append {first rest : List Statement} (h : m.WritesAll first)
    (h' : m.WritesAll rest) : m.WritesAll (first ++ rest) :=
  List.forall_mem_append.mpr ⟨h, h'⟩

theorem WritesAll.nil : m.WritesAll [] := fun _ h => nomatch h

variable {h : Hop} (hp : h.place ∈ m.topology.places) {source target : Handle} {relation : String}
  {statements : List Statement}
include hp

theorem writes_sweep {target : Option Handle} (hsource : source.collection = h.sourceCollection)
    (htarget : ∀ t ∈ target, t.collection = h.targetCollection) :
    m.WritesAll (h.sweep source target) := by
  rw [Hop.sweep_eq]
  intro st hst
  obtain ⟨entry, hentry, rfl⟩ := List.mem_map.mp hst
  exact .clear hp hentry hsource htarget

theorem writes_clearOwn (hsource : source.collection = h.sourceCollection) :
    m.WritesAll (h.clearOwn source) := by
  unfold Hop.clearOwn
  split
  · exact writes_sweep hp hsource (by simp)
  · exact .nil

variable (hm : m.Resolved)
include hm

theorem writes_clearBack (htarget : target.collection = h.targetCollection) :
    m.WritesAll (h.clearBack target) := by
  obtain ⟨ds, hds, ht⟩ := hm.topology
  unfold Hop.clearBack
  cases hb : h.opposite with
  | none => exact .nil
  | some b =>
    obtain ⟨hplace, hsource⟩ := ht.opposite_sourceCollection hm.wellFormed hds hp hb
    dsimp only
    split
    · exact writes_sweep hplace (htarget.trans hsource.symm) (by simp)
    · exact .nil

theorem writes_connect (hsource : source.collection = h.sourceCollection)
    (htarget : target.collection = h.targetCollection)
    (hrun : m.topology.connect h source target = .ok statements) : m.WritesAll statements := by
  obtain ⟨ds, -, ht⟩ := hm.topology
  obtain rfl := Except.ok.inj ((Hop.connect_eq ht hp source target).symm.trans hrun)
  exact (writes_clearBack hp hm htarget).append
    (List.forall_mem_singleton.mpr (.insertEdge hp hsource htarget))

theorem writes_connectAll (hsource : source.collection = h.sourceCollection)
    {targets : List Handle} (hrun : m.connectAll h source relation targets = .ok statements) :
    m.WritesAll statements := by
  induction targets generalizing statements with
  | nil => exact Except.ok.inj hrun ▸ .nil
  | cons target rest ih =>
    obtain ⟨_, hcheck, hrun⟩ := bind_eq_ok.mp hrun
    obtain ⟨connected, hconnect, hrun⟩ := bind_eq_ok.mp hrun
    obtain ⟨others, hothers, hrun⟩ := bind_eq_ok.mp hrun
    obtain rfl := pure_eq_ok.mp hrun
    have htarget := checkTarget_eq_ok.mp hcheck
    exact (writes_connect hp hm hsource htarget hconnect).append (ih hothers)

end

/-! ## The statements of a mutation -/

variable {m : Mapper} (hm : m.Resolved) {source : Handle} {relation : String}
  {statements : List Statement}
include hm

theorem writes_assignEdges {targets : List Handle} {clear : Bool}
    (hrun : m.assignEdges source relation targets clear = .ok statements) :
    m.WritesAll statements := by
  obtain ⟨h, hh, hrun⟩ := bind_eq_ok.mp hrun
  obtain ⟨-, hrun⟩ := guard_eq_ok.mp hrun
  obtain ⟨connected, hconnect, hrun⟩ := bind_eq_ok.mp hrun
  obtain rfl := pure_eq_ok.mp hrun
  have hp := hm.place_of_hopOf hh
  have hsource := hm.sourceCollection_eq hh
  refine WritesAll.append ?_ (writes_connectAll hp hm hsource hconnect)
  split
  · exact writes_sweep hp hsource (by simp)
  · exact .nil

theorem writes_relationEdges {clear : Bool} {relations : Dict String (Neighbours Document)}
    (hrun : m.relationEdges source clear relations = .ok statements) : m.WritesAll statements := by
  induction relations generalizing statements with
  | nil => exact Except.ok.inj hrun ▸ .nil
  | cons entry rest ih =>
    obtain ⟨targets, -, hrun⟩ := bind_eq_ok.mp hrun
    obtain ⟨edges, hedges, hrun⟩ := bind_eq_ok.mp hrun
    obtain ⟨others, hothers, hrun⟩ := bind_eq_ok.mp hrun
    obtain rfl := pure_eq_ok.mp hrun
    exact (writes_assignEdges hm hedges).append (ih hothers)

theorem writes_call {call : EdgeCall} (hrun : call.statements m = .ok statements) :
    m.WritesAll statements := by
  cases call with
  | link source relation target =>
    obtain ⟨h, connected, hh, htarget, hconnect, rfl⟩ := link_eq_ok hrun
    have hp := hm.place_of_hopOf hh
    have hsource := hm.sourceCollection_eq hh
    exact (writes_clearOwn hp hsource).append (writes_connect hp hm hsource htarget hconnect)
  | assign source relation targets => exact writes_assignEdges hm hrun
  | unlink source relation target =>
    obtain ⟨h, hh, hrun⟩ := bind_eq_ok.mp hrun
    have hp := hm.place_of_hopOf hh
    have hsource := hm.sourceCollection_eq hh
    cases target with
    | none => exact pure_eq_ok.mp hrun ▸ writes_sweep hp hsource (by simp)
    | some t =>
      obtain ⟨_, hcheck, hrun⟩ := bind_eq_ok.mp hrun
      have htarget := checkTarget_eq_ok.mp hcheck
      exact pure_eq_ok.mp hrun ▸ writes_sweep hp hsource (by simpa using htarget)

/-- A document is swept from the links that have its collection at that end. -/
theorem writes_detach {e : Entity} (he : e ∈ m.schema.all) {key : String} {stop : EdgeEnd}
    {links : List Link}
    (hlinks : ∀ l ∈ links, l ∈ m.topology.links ∧ l.entityAt stop = e.name) :
    m.WritesAll (links.map (detach ⟨e.collectionName, key⟩ stop)) := by
  obtain ⟨ds, hds, ht⟩ := hm.topology
  intro st hst
  obtain ⟨l, hl, rfl⟩ := List.mem_map.mp hst
  obtain ⟨hl, hend⟩ := hlinks l hl
  exact .detach hl ((ht.collectionAt_eq_iff hm.wellFormed hds hl he).mpr hend).symm

end Mapper

/-- A mutation writes nothing else. -/
theorem Mutation.writes {m : Mapper} (hm : m.Resolved) {mutation : Mutation}
    {statements : List Statement} (hrun : mutation.statements m = .ok statements) :
    m.WritesAll statements := by
  cases mutation with
  | insert freshKey d =>
    obtain ⟨e, he, hrun⟩ := bind_eq_ok.mp hrun
    obtain ⟨_, -, hrun⟩ := bind_eq_ok.mp hrun
    obtain ⟨members, -, hrun⟩ := bind_eq_ok.mp hrun
    obtain ⟨edges, hedges, hrun⟩ := bind_eq_ok.mp hrun
    obtain rfl := pure_eq_ok.mp hrun
    have hmem := (hm.wellFormed.lookup_eq_ok he).1
    exact List.forall_mem_cons.mpr ⟨.insertDocument hmem, Mapper.writes_relationEdges hm hedges⟩
  | update d =>
    obtain ⟨e, he, hrun⟩ := bind_eq_ok.mp hrun
    cases hkey : d.key with
    | none =>
      rw [hkey] at hrun
      cases hrun
    | some key =>
      rw [hkey] at hrun
      obtain ⟨_, -, hrun⟩ := bind_eq_ok.mp hrun
      obtain ⟨patch, -, hrun⟩ := bind_eq_ok.mp hrun
      obtain ⟨edges, hedges, hrun⟩ := bind_eq_ok.mp hrun
      obtain rfl := pure_eq_ok.mp hrun
      have hmem := (hm.wellFormed.lookup_eq_ok he).1
      exact List.forall_mem_cons.mpr ⟨.updateDocument hmem, Mapper.writes_relationEdges hm hedges⟩
  | remove entity key =>
    obtain ⟨e, he, hrun⟩ := bind_eq_ok.mp hrun
    obtain rfl := pure_eq_ok.mp hrun
    have hmem := (hm.wellFormed.lookup_eq_ok he).1
    refine (Mapper.WritesAll.append ?_ ?_).append
      (List.forall_mem_singleton.mpr (.removeDocument hmem))
    · exact Mapper.writes_detach hm hmem fun l hl => by
        simpa [Topology.outgoing, Link.entityAt] using hl
    · exact Mapper.writes_detach hm hmem fun l hl => by
        simpa [Topology.incoming, Link.entityAt] using hl
  | edges call => exact Mapper.writes_call hm hrun

end GraphMapper
